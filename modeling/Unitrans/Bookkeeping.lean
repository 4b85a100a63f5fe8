/-
The patch array and the counters of the blocks balance. A block is current
once in a superblock and is noted at most once while it is: what follows a
note is `trans_next`, which makes an untranslated block current, or the end of
the superblock. So every counter is 0 or 1 (`Balanced`), and `lazy_patch`
takes each back to 0.
-/
import Unitrans.CallerFacts
import Unitrans.Superblock

namespace Unitrans

open X86 Except

variable {L : Layout} {img : Mem}

theorem getElem?_modify_some {α : Type _} {l : List α} {i j : Nat} {f : α → α} {a : α} :
    (l.modify i f)[j]? = some a ↔ ∃ b, l[j]? = some b ∧ (if i = j then f b else b) = a := by
  rw [List.getElem?_modify]
  exact Option.map_eq_some_iff

/-- What the bookkeeping reads of a state: the owners of the entries of the
patch array, the current block, counter and code of each block, the slots
assigned so far, and where code goes next. -/
structure Books where
  owners : List Nat
  cur : Nat
  blocks : List (Word × Word)
  slots : List Word
  codeGenPtr : Word

def TranslationBlock.entry (b : TranslationBlock) : Word × Word := (b.patchNum, b.tcPtr)

def State.books (s : State) : Books :=
  ⟨s.patchArray.map (·.tb), s.curTb, s.tbs.map (·.entry), s.log.slots, s.codeGenPtr⟩

/-- An assignment to fields the books leave out. -/
def KeepsEntry (f : TranslationBlock → TranslationBlock) : Prop := ∀ b, (f b).entry = b.entry

namespace State

variable (s : State)

theorem books_updTb (i : Nat) (f : TranslationBlock → TranslationBlock) (g : Word × Word → Word × Word)
    (h : ∀ b, (f b).entry = g b.entry) : (s.updTb i f).books = { s.books with blocks := s.books.blocks.modify i g } := by
  simp only [books, updTb, Books.mk.injEq, true_and, and_true]
  apply List.ext_getElem?
  intro j
  simp only [List.getElem?_map, List.getElem?_modify]
  cases s.tbs[j]? with
  | none => rfl
  | some b => by_cases hj : i = j <;> simp [hj, h]

theorem books_updTb_of_keeps (i : Nat) {f : TranslationBlock → TranslationBlock} (h : KeepsEntry f) :
    (s.updTb i f).books = s.books := by
  rw [s.books_updTb i f id h]
  have : s.books.blocks.modify i id = s.books.blocks := by
    apply List.ext_getElem?
    intro j
    rw [List.getElem?_modify]
    cases s.books.blocks[j]? <;> simp
  rw [this]

@[simp] theorem books_emit (bs : List Byte) : (s.emit bs).books = s.books := by cases s; rfl
@[simp] theorem books_emitSieve (bs : List Byte) : (s.emitSieve bs).books = s.books := by cases s; rfl
@[simp] theorem books_st32 (a w : Word) : (s.st32 a w).books = s.books := by cases s; rfl
@[simp] theorem books_withCache (c : Word → Option Nat) : (s.withCache c).books = s.books := by cases s; rfl
@[simp] theorem books_logRcCmp (p : Word) : (s.logRcCmp p).books = s.books := by cases s; rfl
@[simp] theorem books_setCodePtr (p : Word) : (s.setCodePtr p).books = s.books := by cases s; rfl
@[simp] theorem books_beginInsn (ds : Decode) (ok : Bool) : (s.beginInsn ds ok).books = s.books := by cases s; rfl
@[simp] theorem books_setPcEnd (i : Nat) : (s.setPcEnd i).books = s.books := by cases s; rfl
@[simp] theorem books_setCodeGenPtr : s.setCodeGenPtr.books = { s.books with codeGenPtr := s.codePtr } := by
  cases s; rfl
@[simp] theorem books_withMem (m : Mem) : (s.withMem m).books = s.books := by cases s; rfl
@[simp] theorem books_incSieveStat (i : Word) : (s.incSieveStat i).books = s.books := by cases s; rfl

@[simp] theorem books_setCurTb (i : Nat) : (s.setCurTb i).books = { s.books with cur := i } := by cases s; rfl
@[simp] theorem books_logSlot (n : Word) : (s.logSlot n).books = { s.books with slots := s.books.slots ++ [n] } := by
  cases s; rfl
@[simp] theorem books_beginSuperblock (b : TranslationBlock) (i : Nat) :
    (s.beginSuperblock b i).books = { s.books with owners := [], cur := i } := by cases s; rfl
@[simp] theorem books_withNewTb (pc f : Word) :
    (s.withNewTb pc f).books = { s.books with blocks := s.books.blocks ++ [(0, NOT_TRANS_YET)] } := by
  cases s
  simp [books, withNewTb, newTb, TranslationBlock.entry]

theorem books_noted (e : PatchEntry) : (s.noted e).books =
    { s.books with
      owners := s.books.owners ++ [e.tb]
      blocks := s.books.blocks.modify e.tb fun p => (p.1 + 1, p.2) } := by
  rw [noted, books_updTb _ _ _ (fun p => (p.1 + 1, p.2)) fun _ => rfl]
  simp [books, addPatch]

theorem books_setTcPtr (i : Nat) (p : Word) : (s.updTb i (·.setTcPtr p)).books =
    { s.books with blocks := s.books.blocks.modify i fun q => (q.1, p) } :=
  s.books_updTb _ _ (fun q => (q.1, p)) fun _ => rfl

theorem books_opened (i : Nat) : (s.opened i).books =
    { s.books with cur := i, blocks := s.books.blocks.modify i fun q => (q.1, s.codePtr) } := by
  rw [opened, books_setCurTb, books_setTcPtr]

theorem getElem?_blocks {i : Nat} {b : TranslationBlock} (h : s.tbs[i]? = some b) :
    s.books.blocks[i]? = some b.entry := by
  simp [books, h]

end State

/-! ## Balance -/

/-- The blocks in `owners` are noted once, the others not. -/
structure Balanced (x : Books) (owners : List Nat) : Prop where
  once : owners.Nodup
  known : ∀ i ∈ owners, i < x.blocks.length
  counted : ∀ (i : Nat) (p : Word × Word), x.blocks[i]? = some p → p.1 = if i ∈ owners then 1 else 0
  slots : ∀ n ∈ x.slots, n < CONT_TRANS_TAG

/-- So it is before an instruction: the current block is not noted yet, and it
and all that are noted have code. -/
structure Clean (x : Books) : Prop where
  balanced : Balanced x x.owners
  begun : ∀ i ∈ x.owners, ∃ p, x.blocks[i]? = some p ∧ p.2 ≠ NOT_TRANS_YET
  cur : x.cur ∉ x.owners
  current : ∃ p, x.blocks[x.cur]? = some p ∧ p.2 ≠ NOT_TRANS_YET

theorem Balanced.num_lt {x : Books} {owners : List Nat} (h : Balanced x owners) {i : Nat} {p : Word × Word}
    (hp : x.blocks[i]? = some p) : p.1 < CONT_TRANS_TAG := by
  rw [h.counted i p hp]
  split <;> decide

theorem Balanced.empty {x : Books} (hb : x.blocks = []) (hs : x.slots = []) : Balanced x [] := by
  refine ⟨List.nodup_nil, nofun, fun i p hp => ?_, fun n hn => ?_⟩
  · simp [hb] at hp
  · simp [hs] at hn

/-- A new block, or code for one, changes no counter. -/
theorem Balanced.make {x : Books} {owners : List Nat} (h : Balanced x owners) (tc : Word) :
    Balanced { x with blocks := x.blocks ++ [(0, tc)] } owners := by
  refine ⟨h.once, fun i hi => ?_, fun i p hp => ?_, h.slots⟩
  · have := h.known i hi
    simp
    omega
  · rw [List.getElem?_append] at hp
    split at hp
    · exact h.counted i p hp
    · rename_i hlen
      have hi : i ∉ owners := fun hi => hlen (h.known i hi)
      rw [if_neg hi]
      obtain ⟨hlt, hp⟩ := List.getElem?_eq_some_iff.mp hp
      simp only [List.getElem_singleton] at hp
      rw [← hp]

theorem Balanced.setTcPtr {x : Books} {owners : List Nat} (h : Balanced x owners) (i : Nat) (p : Word) :
    Balanced { x with blocks := x.blocks.modify i fun q => (q.1, p) } owners := by
  refine ⟨h.once, by simpa using h.known, fun j q hq => ?_, h.slots⟩
  rw [getElem?_modify_some] at hq
  obtain ⟨q', hq', rfl⟩ := hq
  rw [← h.counted j q' hq']
  split <;> rfl

theorem Balanced.setCur {x : Books} {owners : List Nat} (h : Balanced x owners) (i : Nat) :
    Balanced { x with cur := i } owners := ⟨h.once, h.known, h.counted, h.slots⟩

theorem Balanced.slot {x : Books} {owners : List Nat} (h : Balanced x owners) {n : Word} (hn : n < CONT_TRANS_TAG) :
    Balanced { x with slots := x.slots ++ [n] } owners := by
  refine ⟨h.once, h.known, h.counted, fun m hm => ?_⟩
  rcases List.mem_append.mp hm with hm | hm
  · exact h.slots m hm
  · obtain rfl := List.mem_singleton.mp hm
    exact hn

/-- Noting a block that is not noted yet. -/
theorem Balanced.note {x : Books} {owners : List Nat} (h : Balanced x owners) {i : Nat} (hi : i ∉ owners)
    (hlt : i < x.blocks.length) :
    Balanced { x with owners := x.owners ++ [i], blocks := x.blocks.modify i fun p => (p.1 + 1, p.2) } (owners ++ [i]) := by
  refine ⟨?_, fun j hj => ?_, fun j p hp => ?_, h.slots⟩
  · rw [List.nodup_append]
    refine ⟨h.once, List.nodup_singleton _, fun a ha b hb => ?_⟩
    obtain rfl := List.mem_singleton.mp hb
    exact fun he => hi (he ▸ ha)
  · rw [List.length_modify]
    rcases List.mem_append.mp hj with hj | hj
    · exact h.known j hj
    · exact List.mem_singleton.mp hj ▸ hlt
  · rw [getElem?_modify_some] at hp
    obtain ⟨q, hq, rfl⟩ := hp
    have hnum := h.counted j q hq
    by_cases hij : i = j
    · subst hij
      rw [if_neg hi] at hnum
      simp [hnum]
    · have hji : ¬ j = i := fun he => hij he.symm
      simp [hij, hji, hnum]

/-- Settling the first of the blocks noted. -/
theorem Balanced.settle {x : Books} {i : Nat} {owners : List Nat} (h : Balanced x (i :: owners)) :
    Balanced { x with blocks := x.blocks.modify i fun p => (0, p.2) } owners := by
  have hnd := List.nodup_cons.mp h.once
  refine ⟨hnd.2, fun j hj => ?_, fun j p hp => ?_, h.slots⟩
  · rw [List.length_modify]
    exact h.known j (List.mem_cons_of_mem _ hj)
  · rw [getElem?_modify_some] at hp
    obtain ⟨q, hq, rfl⟩ := hp
    have hnum := h.counted j q hq
    by_cases hij : i = j
    · subst hij
      simp [hnd.1]
    · have hji : ¬ j = i := fun he => hij he.symm
      simpa [hij, hji] using hnum

/-! ## One instruction -/

theorem Clean.noted {s : State} (h : Clean s.books) {e : PatchEntry} (he : e.tb = s.curTb) :
    Balanced (s.noted e).books (s.noted e).books.owners ∧
      (∀ i ∈ (s.noted e).books.owners, ∃ p, (s.noted e).books.blocks[i]? = some p ∧ p.2 ≠ NOT_TRANS_YET) ∧
      ∃ p, (s.noted e).books.blocks[s.curTb]? = some p ∧ p.2 ≠ NOT_TRANS_YET := by
  obtain ⟨p, hp, htc⟩ := h.current
  have hlt : s.curTb < s.books.blocks.length := (List.getElem?_eq_some_iff.mp hp).1
  have hbegun : ∀ {i : Nat} {p : Word × Word}, s.books.blocks[i]? = some p → p.2 ≠ NOT_TRANS_YET →
      ∃ q, (s.books.blocks.modify s.curTb fun p => (p.1 + 1, p.2))[i]? = some q ∧ q.2 ≠ NOT_TRANS_YET := by
    intro i p hp htc
    rw [List.getElem?_modify, hp]
    by_cases hi : s.curTb = i
    · exact ⟨(p.1 + 1, p.2), by simp [hi], htc⟩
    · exact ⟨p, by simp [hi], htc⟩
  rw [State.books_noted, he]
  refine ⟨h.balanced.note h.cur hlt, fun i hi => ?_, hbegun hp htc⟩
  rcases List.mem_append.mp hi with hi | hi
  · obtain ⟨q, hq, hqtc⟩ := h.begun i hi
    exact hbegun hq hqtc
  · rw [List.mem_singleton.mp hi]
    exact hbegun hp htc

/-- `trans_next` from a state whose current block may be noted already. -/
theorem NextTb.books {s s' : State} {cont : Bool} (hn : NextTb s cont s') (hb : Balanced s.books s.books.owners)
    (hbegun : ∀ i ∈ s.books.owners, ∃ p, s.books.blocks[i]? = some p ∧ p.2 ≠ NOT_TRANS_YET) :
    Balanced s'.books s'.books.owners ∧ (cont = true → s'.codePtr ≠ NOT_TRANS_YET → Clean s'.books) := by
  cases hn with
  | @ends i b cur hi hpc htc hcur =>
    have hkeeps : KeepsEntry fun c => c.setJmpOffset cur.patchNum.toNat ((s.codePtr + 1 - cur.tcPtr).setWidth 16) :=
      fun _ => rfl
    have hfrom : KeepsEntry fun c => c.addJmpFrom s.curTb cur.patchNum := fun _ => rfl
    refine ⟨?_, by simp⟩
    rw [State.jumped, State.tbAddJmpFrom, State.books_updTb_of_keeps _ _ hfrom, State.books_updTb_of_keeps _ _ hkeeps,
      State.books_logSlot, State.books_emit]
    exact hb.slot (hb.num_lt (s.getElem?_blocks hcur))
  | @opens i b hi hpc htc =>
    have hblock := s.getElem?_blocks hi
    have hout : i ∉ s.books.owners := fun hmem => by
      obtain ⟨p, hp, hp2⟩ := hbegun i hmem
      rw [hblock] at hp
      exact hp2 (Option.some.inj hp ▸ htc)
    rw [State.books_opened]
    refine ⟨(hb.setTcPtr i s.codePtr).setCur i, fun _ hptr => ⟨(hb.setTcPtr i s.codePtr).setCur i, fun j hj => ?_, hout, ?_⟩⟩
    · obtain ⟨p, hp, hp2⟩ := hbegun j hj
      have hij : i ≠ j := fun he => hout (he ▸ hj)
      exact ⟨p, by simp [hij, hp], hp2⟩
    · exact ⟨(b.entry.1, s.codePtr), by simp [hblock], hptr⟩
  | makes f =>
    rw [State.books_opened, State.books_withNewTb]
    have hlen : s.books.blocks.length = s.tbs.length := by simp [State.books]
    have hnew := ((hb.make NOT_TRANS_YET).setTcPtr s.tbs.length s.codePtr).setCur s.tbs.length
    have hout : s.tbs.length ∉ s.books.owners := fun hmem => by
      have := hb.known _ hmem
      omega
    refine ⟨hnew, fun _ hptr => ⟨hnew, fun j hj => ?_, hout, ?_⟩⟩
    · obtain ⟨p, hp, hp2⟩ := hbegun j hj
      have hlt := hb.known j hj
      have hij : s.tbs.length ≠ j := by omega
      refine ⟨p, ?_, hp2⟩
      rw [List.getElem?_modify, List.getElem?_append_left hlt, hp]
      simp [hij]
    · refine ⟨(0, s.codePtr), ?_, hptr⟩
      rw [List.getElem?_modify, ← hlen, List.getElem?_append_right (Nat.le_refl _)]
      simp [State.withNewTb]

theorem Clean.make {x : Books} (h : Clean x) : Clean { x with blocks := x.blocks ++ [(0, NOT_TRANS_YET)] } := by
  have hold : ∀ {i : Nat} {p : Word × Word}, x.blocks[i]? = some p → (x.blocks ++ [(0, NOT_TRANS_YET)])[i]? = some p :=
    fun hp => by rw [List.getElem?_append_left (List.getElem?_eq_some_iff.mp hp).1, hp]
  refine ⟨h.balanced.make _, fun i hi => ?_, h.cur, ?_⟩
  · obtain ⟨p, hp, hp2⟩ := h.begun i hi
    exact ⟨p, hold hp, hp2⟩
  · obtain ⟨p, hp, hp2⟩ := h.current
    exact ⟨p, hold hp, hp2⟩

theorem Entrance.books {s s' : State} {target cur : Word} (he : Entrance L s target cur s') (h : Clean s.books) :
    Clean s'.books := by
  cases he with
  | stays => exact h
  | copies => simpa using h
  | makes => simpa using h.make

theorem Entrance.curTb {s s' : State} {target cur : Word} (he : Entrance L s target cur s') : s'.curTb = s.curTb := by
  cases he <;> rfl

theorem entry_indOptFields (p : Word) (n : Nat) (t : Word) (b : TranslationBlock) :
    (indOptFields p n (b.setType t)).entry = b.entry := by
  simp only [indOptFields, TranslationBlock.entry, TranslationBlock.setJindSrcAddr, TranslationBlock.setJindDestAddr,
    TranslationBlock.setIndEnterSieve, TranslationBlock.setType]

theorem keepsEntry_callNearMemFields (r p tb pc : Word) (ds : Decode) :
    KeepsEntry (callNearMemFields L r p tb pc ds) := fun b => by
  rw [callNearMemFields, entry_indOptFields]

theorem keepsEntry_jmpNearMemFields (r p tb : Word) (ds : Decode) : KeepsEntry (jmpNearMemFields L r p tb ds) := fun b => by
  rw [jmpNearMemFields, entry_indOptFields]

/-- An emitter, with what it noted: the books balance, and translation goes on
with a block that is not noted. -/
theorem Emitted.books {s s' : State} {ds : Decode} {cont : Bool} (he : Emitted L img s ds cont s') (h : Clean s.books) :
    Balanced s'.books s'.books.owners ∧ (cont = true → s'.codePtr ≠ NOT_TRANS_YET → Clean s'.books) := by
  have hcopy : ∀ {t : State}, t.books = s.books →
      Balanced t.books t.books.owners ∧ (cont = true → t.codePtr ≠ NOT_TRANS_YET → Clean t.books) := fun ht => by
    rw [ht]
    exact ⟨h.balanced, fun _ _ => h⟩
  have hnote : ∀ {bs : List Byte} {e : PatchEntry} {u : State}, NextTb u cont s' →
      u.books = ((s.emit bs).noted e).books → e.tb = s.curTb →
      Balanced s'.books s'.books.owners ∧ (cont = true → s'.codePtr ≠ NOT_TRANS_YET → Clean s'.books) := by
    intro bs e u hn hu he
    obtain ⟨hb, hbegun, -⟩ := Clean.noted (s := s.emit bs) (by simpa using h) (he.trans (s.curTb_emit bs).symm)
    rw [← hu] at hb hbegun
    exact hn.books hb hbegun
  cases he with
  | normal => exact hcopy (by simp)
  | int => exact hcopy (by simp)
  | sysenter => exact hcopy rfl
  | ret => exact hcopy (by simp)
  | retIw => exact hcopy (by simp)
  | jmpNearMem => exact hcopy ((State.books_updTb_of_keeps _ _ (keepsEntry_jmpNearMemFields _ _ _ _)).trans (State.books_emit _ _))
  | @jmp b c s₁ hfn hb he =>
    have hclean : Clean (s₁.emit ([0xe9] ++ le32 NEED_PATCH_32)).books := by
      rw [State.books_emit]
      exact he.books (by simpa using h)
    exact ⟨(hclean.noted (by rw [State.curTb_emit])).1, by simp⟩
  | callDisp hfn hn => exact hnote hn ((State.books_withCache _ _).trans (State.books_logRcCmp _ _)) rfl
  | jcond hfn hb hn => exact hnote hn (State.books_withCache _ _) rfl
  | otherJcond hfn hb hn => exact hnote hn (State.books_withCache _ _) rfl
  | @callNearMem c cont s' hfn h4 hn =>
    generalize hu : State.withCache _ c = u at hn
    have hbooks : u.books = s.books := by
      rw [← hu, State.books_withCache, State.books_logRcCmp,
        State.books_updTb_of_keeps _ _ (keepsEntry_callNearMemFields _ _ _ _ _), State.books_emit]
    rw [← hbooks] at h
    exact hn.books h.balanced h.begun

theorem codePtr_ne {p : Word} (h : (p - L.codeGenBuffer).toNat ≤ DEFAULT_CODE_GEN_BUFFER_SIZE) : p ≠ NOT_TRANS_YET := by
  intro he
  refine L.not_trans_yet (mem_span.mpr ?_)
  rw [← he]
  omega

theorem genInsn_books {s : State} {ds : Decode} {G : State.GenLoop} (h : Clean s.books) :
    (s.genInsn L img G ds).Ensures fun (_, cont, s') => Balanced s'.books s'.books.owners ∧
      (s'.codePtr - L.codeGenBuffer).toNat ≤ DEFAULT_CODE_GEN_BUFFER_SIZE ∧ (cont = true → Clean s'.books) := by
  refine (genInsn_spec s ds).mono fun p hs' => ?_
  obtain ⟨r, cont, s'⟩ := p
  obtain ⟨ok, s₁, -, he, hptr, rfl⟩ := hs'
  have hkeeps : KeepsEntry (·.incInsnCount) := fun _ => rfl
  obtain ⟨hb, hclean⟩ := he.books (by simpa using h)
  have hsame := s₁.books_updTb_of_keeps (G.who s₁) hkeeps
  show Balanced (s₁.updTb _ _).books (s₁.updTb _ _).books.owners ∧ _ ∧ (cont = true → Clean (s₁.updTb _ _).books)
  rw [hsame]
  exact ⟨hb, hptr, fun hc => hclean hc (codePtr_ne hptr)⟩

/-- The exit at the limit notes the current block. -/
theorem limitExit_books {s : State} (h : Clean s.books) : (s.limitExit L .target).Ensures fun s' =>
    Balanced s'.books s'.books.owners ∧ s'.patchArray.length = s.patchArray.length + 1 ∧
      (s'.codePtr - L.codeGenBuffer).toNat ≤ DEFAULT_CODE_GEN_BUFFER_SIZE := by
  obtain ⟨p, hp, -⟩ := h.current
  have hlt : s.curTb < s.books.blocks.length := (List.getElem?_eq_some_iff.mp hp).1
  simp only [State.limitExit, State.GenLoop.target, ensures_bind, ensures_pure]
  rintro b -
  obtain ⟨t, ht⟩ : ∃ t, t = if b.tcPtr = s.codePtr then s.updTb s.curTb (·.setTcPtr NOT_TRANS_YET) else s := ⟨_, rfl⟩
  have htb : Balanced t.books t.books.owners ∧ t.books.owners = s.books.owners ∧
      t.books.blocks.length = s.books.blocks.length ∧ t.curTb = s.curTb ∧ t.patchArray = s.patchArray := by
    rw [ht]
    split
    · rw [State.books_setTcPtr]
      exact ⟨h.balanced.setTcPtr _ _, rfl, by simp, by simp, by simp⟩
    · exact ⟨h.balanced, rfl, rfl, rfl, rfl⟩
  obtain ⟨htb, howners, hlen, hcur, hpatch⟩ := htb
  rw [← ht]
  refine (notePatch_spec L _ _ _ _ _ _).mono fun s₁ hs₁ => ?_
  intro _ hcheck
  have hnum : (s₁.codePtr - L.codeGenBuffer).toNat ≤ DEFAULT_CODE_GEN_BUFFER_SIZE := by
    simp only [State.checkCode] at hcheck
    split at hcheck
    · cases hcheck
    · omega
  subst hs₁
  refine ⟨?_, by simp [State.noted, State.addPatch, hpatch], hnum⟩
  rw [State.books_noted, State.books_emit, State.curTb_emit]
  exact htb.note (by rw [howners, hcur]; exact h.cur) (by rw [hlen, hcur]; exact hlt)

/-! ## `lazy_patch` -/

/-- Between two iterations of `lazy_patch`, `rest` being the entries to come:
their owners are still noted; the code and the array are as they were. -/
structure Settling (p : Word) (es : List PatchEntry) (rest : List PatchEntry) (s : State) : Prop where
  balanced : Balanced s.books (rest.map (·.tb))
  codePtr : s.codePtr = p
  patchArray : s.patchArray = es

/-- Settling the owner of the entry at hand. -/
theorem takeSlot_books {s : State} {e : PatchEntry} {p : Word} {es rest : List PatchEntry}
    (h : Settling p es (e :: rest) s) : (s.takeSlot e).Ensures fun (_, s') => Settling p es rest s' := by
  simp only [State.takeSlot, ensures_bind, ensures_pure]
  intro cur hcur
  have hcur' : s.tbs[e.tb]? = some cur := State.tb_ensures _ _ cur hcur
  have hnum : cur.patchNum - 1 = 0 := by
    have hone : cur.entry.1 = 1 := by simpa using h.balanced.counted _ _ (s.getElem?_blocks hcur')
    have hcount : cur.patchNum = 1 := hone
    rw [hcount]
    rfl
  rw [hnum]
  refine ⟨?_, ?_, ?_⟩
  · rw [State.books_updTb _ _ _ (fun p => (0, p.2)) fun _ => rfl, State.books_logSlot, State.books_setCurTb]
    exact ((h.balanced.settle).setCur e.tb).slot (by decide)
  · exact h.codePtr
  · exact h.patchArray

theorem Settling.congr {s s' : State} {p : Word} {es rest : List PatchEntry} (h : Settling p es rest s)
    (hb : s'.books = s.books) (hp : s'.codePtr = s.codePtr) (ha : s'.patchArray = s.patchArray) :
    Settling p es rest s' := ⟨hb ▸ h.balanced, hp.trans h.codePtr, ha.trans h.patchArray⟩

theorem patchToStub_books {s : State} {e : PatchEntry} {p : Word} {es rest : List PatchEntry}
    (h : Settling p es (e :: rest) s) (d : Option Nat) : (s.patchToStub L e d).Ensures (Settling p es rest) := by
  have hmake : (s.makeDest L e d).Ensures (Settling p es (e :: rest)) := by
    cases d with
    | none =>
      simp only [State.makeDest, ensures_bind, ensures_pure]
      refine makeTb_spec.mono fun p h₁ => ?_
      obtain ⟨tb, s₁⟩ := p
      obtain ⟨-, rfl⟩ := h₁
      refine ⟨?_, h.codePtr, h.patchArray⟩
      show Balanced (s.withNewTb _ _).books _
      rw [State.books_withNewTb]
      exact h.balanced.make _
    | some d => exact ensures_ok.mpr h
  simp only [State.patchToStub, ensures_bind, ensures_pure]
  refine hmake.mono fun s₁ h₁ => ?_
  have hst : Settling p es (e :: rest) (s₁.st32 e.loc (s₁.sieveCodePtr - e.loc - 4)) :=
    h₁.congr (State.books_st32 _ _ _) rfl rfl
  refine (takeSlot_books hst).mono fun p h₂ => ?_
  obtain ⟨n, s₂⟩ := p
  rintro _ -
  have hsettle : Settling p es rest s₂ := h₂
  rw [cemitExitStub_eq]
  exact hsettle.congr (State.books_emitSieve _ _) rfl rfl

theorem lazyPatchEntry_books {s : State} {e : PatchEntry} {p : Word} {es rest : List PatchEntry}
    (h : Settling p es (e :: rest) s) : (s.lazyPatchEntry L e).Ensures (Settling p es rest) := by
  simp only [State.lazyPatchEntry, ensures_bind]
  refine (tbFindFast_frame s e.dest e.tbTag).mono fun p h₁ => ?_
  obtain ⟨d, s₁⟩ := p
  obtain ⟨⟨c, rfl⟩, -⟩ := h₁
  have hs₁ : Settling p es (e :: rest) (s.withCache c) := h.congr (State.books_withCache _ _) rfl rfl
  cases d with
  | none => exact patchToStub_books hs₁ none
  | some d =>
    simp only [ensures_bind, ensures_ite, ensures_pure]
    rintro b -
    refine ⟨fun _ => ?_, fun _ => patchToStub_books hs₁ _⟩
    have hst : Settling p es (e :: rest) ((s.withCache c).st32 e.loc (b.tcPtr - e.loc - 4)) :=
      hs₁.congr (State.books_st32 _ _ _) rfl rfl
    refine (takeSlot_books hst).mono fun p h₂ => ?_
    obtain ⟨n, s₂⟩ := p
    have hsettle : Settling p es rest s₂ := h₂
    exact hsettle.congr (s₂.books_updTb_of_keeps _ fun _ => rfl) rfl rfl

/-! ## A whole superblock -/

/-- So it is between superblocks: no block is noted, and code goes into its buffer. -/
structure Settled (L : Layout) (s : State) : Prop where
  balanced : Balanced s.books []
  room : (s.codeGenPtr - L.codeGenBuffer).toNat ≤ DEFAULT_CODE_GEN_BUFFER_SIZE

theorem Settled.congr {s s' : State} (h : Settled L s) (hb : s'.books = s.books) : Settled L s' := by
  have hp : s'.codeGenPtr = s.codeGenPtr := congrArg Books.codeGenPtr hb
  exact ⟨hb ▸ h.balanced, hp ▸ h.room⟩

/-- The state `gen_target_code` is called in by `cpu_gen_code`. -/
def State.placed (s : State) (tb : Nat) : State := s.updTb tb (·.setTcPtr s.codeGenPtr)

variable {s : State} {ds : Decode} {tb : Nat}

theorem Settled.clean (h : Settled L s) {b : TranslationBlock} (hb : (s.placed tb).tb tb = .ok b) :
    Clean ((s.placed tb).beginSuperblock b tb).books := by
  have hb' : (s.placed tb).tbs[tb]? = some b := State.tb_ensures _ _ b hb
  have hbal : Balanced (s.placed tb).books [] := by
    rw [State.placed, State.books_setTcPtr]
    exact h.balanced.setTcPtr _ _
  have htc : b.tcPtr = s.codeGenPtr := by
    simp only [State.placed, State.updTb, List.getElem?_modify_eq, Option.map_eq_map, Option.map_eq_some_iff] at hb'
    obtain ⟨c, -, rfl⟩ := hb'
    rfl
  rw [State.books_beginSuperblock]
  refine ⟨⟨hbal.once, hbal.known, hbal.counted, hbal.slots⟩, by simp, by simp, ?_⟩
  refine ⟨b.entry, State.getElem?_blocks _ hb', ?_⟩
  exact fun he => codePtr_ne h.room (htc.symm.trans he)

/-- Every head of the loop is clean. -/
theorem Head.clean (h : Settled L s) {left : Nat} {t : State} {ds₁ : Decode}
    (hd : Head L img .target (s.placed tb) ds tb left t ds₁) : Clean t.books := by
  induction hd with
  | start hb _ => exact h.clean hb
  | next _ hinsn _ ih =>
    obtain ⟨-, -, hclean⟩ := genInsn_books ih _ hinsn
    exact hclean rfl

/-- The loop leaves books that balance. -/
theorem genInsns_books (h : Settled L s) {left : Nat} {t : State} {ds₁ : Decode}
    (hd : Head L img .target (s.placed tb) ds tb left t ds₁) : (t.genInsns L img .target left ds₁).Ensures fun t' =>
      Balanced t'.books t'.books.owners ∧ t'.patchArray.length ≤ PATCH_ARRAY_SIZE - 1 ∧
        (t'.codePtr - L.codeGenBuffer).toNat ≤ DEFAULT_CODE_GEN_BUFFER_SIZE := by
  refine genInsns_ensures (I := fun t => Clean t.books ∧ t.patchArray.length ≤ PATCH_ARRAY_SIZE - 2) ?_ ?_ left hd
    ⟨hd.clean h, by have := hd.patches; omega⟩
  · rintro left s₁ ds₁ hd ⟨hs₁, -⟩
    refine ((genInsn_books hs₁).and (genInsn_patches s₁ ds₁)).mono fun p h₂ => ?_
    obtain ⟨ds₂, cont, s₂⟩ := p
    obtain ⟨⟨hb, hptr, hclean⟩, hlen⟩ := h₂
    have hlt := hd.patches
    cases cont with
    | true => exact ⟨hclean rfl, by omega⟩
    | false => exact ⟨hb, by omega, hptr⟩
  · rintro s₁ ⟨hs₁, hlen⟩
    refine (limitExit_books hs₁).mono fun s₂ h₂ => ⟨h₂.1, ?_, h₂.2.2⟩
    have hmax : PATCH_ARRAY_SIZE = 256 := rfl
    omega

theorem cpuGenCode_settled (h : Settled L s) (ds : Decode) (tb : Nat) : (s.cpuGenCode L img ds tb).Ensures (Settled L) := by
  have hplaced : s.cpuGenCode L img ds tb = (s.placed tb).genSuperblock L img .target ds tb := rfl
  rw [hplaced]
  simp only [State.genSuperblock, ensures_bind, ensures_pure]
  intro b hb _ hstb
  refine (genInsns_books h (.start hb ?_)).mono fun t ht => ?_
  · simp only [abortIf] at hstb
    split at hstb
    · cases hstb
    · simp_all [State.beginSuperblock]
  · obtain ⟨hbal, -, hptr⟩ := ht
    obtain ⟨u, hu⟩ : ∃ u, u = t.setPcEnd (s.placed tb).stbs.length := ⟨_, rfl⟩
    have hstart : Settling t.codePtr t.patchArray (t.patchArray ++ []) u := by
      rw [hu, List.append_nil]
      exact ⟨by rw [State.books_setPcEnd]; exact hbal, rfl, rfl⟩
    have hpatch : u.patchArray = t.patchArray := hu ▸ rfl
    rw [← hu, State.lazyPatch, hpatch]
    refine (Ensures.foldlM_rest (I := Settling t.codePtr t.patchArray) (fun e l s hs => lazyPatchEntry_books hs) _
      hstart).mono fun v hv => ?_
    rintro _ -
    refine ⟨?_, ?_⟩
    · have hkeeps : KeepsEntry fun b => b.setHcodeSize ((v.setCodeGenPtr.codeGenPtr - b.tcPtr).setWidth 16) := fun _ => rfl
      rw [State.books_updTb_of_keeps _ _ hkeeps, State.books_setCodeGenPtr]
      exact ⟨hv.balanced.once, hv.balanced.known, hv.balanced.counted, hv.balanced.slots⟩
    · show (v.codePtr - L.codeGenBuffer).toNat ≤ _
      rw [hv.codePtr]
      exact hptr

/-! ## The dispatcher -/

/-- The states between the calls of `cpu_exec`, in whatever order it makes
them; `run` is what executed code does to memory. -/
inductive DispatchReach (L : Layout) : State → Prop
  | codecachePrologueInit {s s'} : Booted L s → s.codecachePrologueInit L = .ok s' → DispatchReach L s'
  | tbFindFast {s s' pc r} : DispatchReach L s → s.tbFindFast pc NORMAL_TB_TAG = .ok (r, s') → DispatchReach L s'
  | makeTb {s s' pc f tb} : DispatchReach L s → s.makeTb L pc f NORMAL_TB_TAG = .ok (tb, s') → DispatchReach L s'
  | cpuGenCode {s s' img ds tb} : DispatchReach L s → s.cpuGenCode L img ds tb = .ok s' → DispatchReach L s'
  | handleInd {s s' prev tb r} : DispatchReach L s → s.handleInd L prev tb = .ok (r, s') → DispatchReach L s'
  | linkTb {s s' prev tb} : DispatchReach L s → s.linkTb L prev tb = .ok s' → DispatchReach L s'
  | clearEnv {s b} : DispatchReach L s → DispatchReach L (s.clearEnv L b)
  | run {s m} : DispatchReach L s → DispatchReach L (s.withMem m)

theorem DispatchReach.getNextTb {s s' : State} {ds : Decode} {pc prev : Word} {tb : Nat} (h : DispatchReach L s)
    (hn : s.getNextTb L img ds pc prev = .ok (tb, s')) : DispatchReach L s' := by
  revert hn
  suffices hs : (s.getNextTb L img ds pc prev).Ensures fun r => DispatchReach L r.2 from fun hn => hs _ hn
  simp only [State.getNextTb, ensures_bind]
  rintro ⟨r, s₁⟩ h₁
  have hs₁ := h.tbFindFast h₁
  cases r with
  | none =>
    simp only [ensures_bind, ensures_pure]
    rintro f - ⟨tb, s₂⟩ h₂ s₃ h₃
    exact (hs₁.makeTb h₂).cpuGenCode h₃
  | some i =>
    simp only [ensures_bind, ensures_ite, ensures_pure]
    exact fun b _ => ⟨fun _ s₃ h₃ => hs₁.cpuGenCode h₃, fun _ => hs₁⟩

/-- An iteration of `cpu_exec` is such calls. -/
theorem DispatchReach.cpuExecIter {s s' : State} {ds : Decode} {prev : Word} (h : DispatchReach L s)
    (hn : s.cpuExecIter L img ds prev = .ok s') : DispatchReach L s' := by
  revert hn
  suffices hs : (s.cpuExecIter L img ds prev).Ensures (DispatchReach L) from fun hn => hs _ hn
  simp only [State.cpuExecIter, ensures_bind, ensures_pure]
  rintro ⟨tb, s₁⟩ h₁ ⟨p, s₂⟩ h₂ s₃ h₃ b -
  exact (((h.getNextTb h₁).handleInd h₂).linkTb h₃).clearEnv

theorem addSieveEntry_settled {s : State} (h : Settled L s) (tb : Nat) (t : Word) :
    (s.addSieveEntry L tb t).Ensures (Settled L) := by
  simp only [State.addSieveEntry, ensures_bind, ensures_ite, ensures_pure]
  refine fun b _ => ⟨fun _ => h, fun _ _ _ => ?_⟩
  rw [cemitSieveNode_eq]
  exact h.congr (by simp)

theorem patchIndOpt_settled {s : State} (h : Settled L s) (prev tb : Nat) : (s.patchIndOpt L prev tb).Ensures (Settled L) := by
  simp only [State.patchIndOpt, State.patchJmpTarget, ensures_bind, ensures_ite, ensures_pure]
  have hkeeps : KeepsEntry (·.incJmpIndIndex) := fun _ => rfl
  refine fun p _ => ⟨fun _ b _ c _ => ?_, fun _ => ?_⟩
  · refine h.congr ?_
    rw [State.books_updTb_of_keeps _ _ hkeeps, State.books_st32, State.books_st32]
  · rw [State.indPatchSieve, cemitSieveNopush_eq]
    exact h.congr (by simp)

theorem handleInd_settled {s : State} (h : Settled L s) (prev : Word) (tb : Nat) :
    (s.handleInd L prev tb).Ensures fun r => Settled L r.2 := by
  simp only [State.handleInd, ensures_ite, ensures_bind, ensures_pure, ensures_ok]
  refine ⟨fun _ => ⟨fun _ => ?_, fun _ i _ => ?_⟩, fun _ => h⟩
  · refine (addSieveEntry_settled h tb _).mono fun s₁ h₁ => ?_
    exact h₁.congr (State.books_st32 _ _ _)
  · exact patchIndOpt_settled h i tb

theorem linkTb_settled {s : State} (h : Settled L s) (prev : Word) (tb : Nat) : (s.linkTb L prev tb).Ensures (Settled L) := by
  simp only [State.linkTb, State.tbAddJump, State.tbSetJmpTarget, ensures_ite, ensures_bind, ensures_pure, ensures_ok]
  refine ⟨fun _ i _ b _ c _ => ?_, fun _ => h⟩
  have hkeeps : KeepsEntry fun b => b.addJmpFrom i (s.mem.ld32 L.patchNum) := fun _ => rfl
  refine h.congr ?_
  rw [State.tbAddJmpFrom, State.books_updTb_of_keeps _ _ hkeeps, State.tbSetJmpTarget1, State.books_st32]

theorem State.codeGenPtr_withNewTb (s : State) (pc f : Word) : (s.withNewTb pc f).codeGenPtr = s.codeGenPtr := rfl

theorem cachePrologue_books (s : State) : (s.cachePrologue L).books = s.books := by
  rw [cachePrologue_eq]
  simp only [State.books]

theorem DispatchReach.settled {s : State} (h : DispatchReach L s) : Settled L s := by
  induction h with
  | @codecachePrologueInit s s' hb h =>
    obtain ⟨eip, rfl, -⟩ := codecachePrologueInit_spec s _ h
    have hempty : Balanced s.books [] := by
      refine .empty ?_ (congrArg Log.slots hb.log)
      simp [State.books, hb.tbs]
    have hptr : (s.cachePrologue L).codeGenPtr = L.codeGenBuffer := by rw [cachePrologue_eq, hb.codeGenPtr]
    refine ⟨?_, ?_⟩
    · rw [State.books_withNewTb, cachePrologue_books]
      exact hempty.make NOT_TRANS_YET
    · rw [State.codeGenPtr_withNewTb, hptr, BitVec.sub_self]
      exact Nat.zero_le _
  | tbFindFast _ h ih =>
    obtain ⟨⟨c, rfl⟩, -⟩ := tbFindFast_frame _ _ _ _ h
    exact ih.congr (State.books_withCache _ _)
  | makeTb _ h ih =>
    obtain ⟨-, rfl⟩ := makeTb_spec _ h
    refine ⟨?_, ih.room⟩
    rw [State.books_withNewTb]
    exact ih.balanced.make _
  | cpuGenCode _ h ih => exact cpuGenCode_settled ih _ _ _ h
  | handleInd _ h ih => exact handleInd_settled ih _ _ _ h
  | linkTb _ h ih => exact linkTb_settled ih _ _ _ h
  | clearEnv _ ih => exact ih.congr (by simp [State.clearEnv])
  | run _ ih => exact ih.congr (State.books_withMem _ _)

/-! ## The bounds -/

/-- The states `gen_target_code` passes through for block `tb`: at the head of
its loop, after an emitter, after the exit at the limit, and between the
iterations of `lazy_patch`. -/
inductive GenPoint (L : Layout) (img : Mem) (s : State) (ds : Decode) (tb : Nat) : State → Prop
  | head {left t ds₁} : Head L img .target s ds tb left t ds₁ → GenPoint L img s ds tb t
  | emitted {left t ds₁ r ok cont t'} : Head L img .target s ds tb left t ds₁ →
      simpleDisasInsn img ds₁ t.pcPtr = some (r, ok) → (t.beginInsn r ok).callEmitfn L img r = .ok (cont, t') →
      GenPoint L img s ds tb t'
  | limited {left t ds₁ ds₂ t₁ t'} : Head L img .target s ds tb left t ds₁ →
      t.genInsn L img .target ds₁ = .ok (ds₂, true, t₁) → t₁.limitExit L .target = .ok t' → GenPoint L img s ds tb t'
  | patched {left t ds₁ t₁ t' done rest} : Head L img .target s ds tb left t ds₁ →
      t.genInsns L img .target left ds₁ = .ok t₁ → t₁.patchArray = done ++ rest →
      done.foldlM (fun s e => s.lazyPatchEntry L e) (t₁.setPcEnd s.stbs.length) = .ok t' → GenPoint L img s ds tb t'

/-- The bounds the arrays need. -/
structure WithinBounds (s : State) : Prop where
  patchCount : s.patchArray.length ≤ PATCH_ARRAY_SIZE - 1
  patchNum : ∀ b ∈ s.tbs, b.patchNum < CONT_TRANS_TAG
  slots : ∀ n ∈ s.log.slots, n < CONT_TRANS_TAG

theorem Balanced.within {s : State} {owners : List Nat} (h : Balanced s.books owners)
    (hlen : s.patchArray.length ≤ PATCH_ARRAY_SIZE - 1) : WithinBounds s := by
  refine ⟨hlen, fun b hb => ?_, h.slots⟩
  obtain ⟨i, hi⟩ := List.getElem?_of_mem hb
  exact h.num_lt (s.getElem?_blocks hi)

theorem GenPoint.within (h : Settled L s) {t : State} (ht : GenPoint L img (s.placed tb) ds tb t) : WithinBounds t := by
  have hmax : PATCH_ARRAY_SIZE = 256 := rfl
  cases ht with
  | head hd =>
    have := hd.patches
    exact (hd.clean h).balanced.within (by omega)
  | @emitted _ t₀ ds₁ r ok cont _ hd hr he =>
    have hspec := callEmitfn_spec _ _ _ he
    have hclean : Clean (t₀.beginInsn r ok).books := by simpa using hd.clean h
    refine (hspec.books hclean).1.within ?_
    have hlt := hd.patches
    rcases hspec.patchArray with hp | ⟨e, -, hp⟩ <;> rw [hp] <;> simp <;> omega
  | @limited _ t₀ ds₁ ds₂ t₁ _ hd hinsn hlim =>
    obtain ⟨-, -, hclean⟩ := genInsn_books (hd.clean h) _ hinsn
    have hlen : t₁.patchArray.length ≤ t₀.patchArray.length + 1 := genInsn_patches t₀ ds₁ _ hinsn
    obtain ⟨hb, hone, -⟩ := limitExit_books (hclean rfl) _ hlim
    have hlt := hd.patches
    exact hb.within (by omega)
  | @patched _ t₀ ds₁ t₁ _ done rest hd hrun happ hfold =>
    obtain ⟨hb, hlen, -⟩ := genInsns_books h hd _ hrun
    have hstart : Settling t₁.codePtr t₁.patchArray (done ++ rest) (t₁.setPcEnd (s.placed tb).stbs.length) := by
      rw [← happ]
      exact ⟨by rw [State.books_setPcEnd]; exact hb, rfl, rfl⟩
    have hrest := Ensures.foldlM_rest (I := Settling t₁.codePtr t₁.patchArray)
      (fun e l s hs => lazyPatchEntry_books hs) done hstart _ hfold
    exact hrest.balanced.within (by rw [hrest.patchArray]; exact hlen)

theorem genInsn_noOverflow {G : State.GenLoop} {t : State} {ds₁ : Decode} (h : t.patchArray.length < PATCH_ARRAY_SIZE) :
    (t.genInsn L img G ds₁).Fails fun e => e ≠ .abort "node_patch overflow\n" := by
  by_cases hfn : ∃ r ok, simpleDisasInsn img ds₁ t.pcPtr = some (r, ok) ∧ r.emitfn = .null
  · obtain ⟨r, ok, hr, hnull⟩ := hfn
    simp only [State.genInsn, hr, fails_bind, fails_pure, State.callEmitfn, hnull, fails_error]
    exact ⟨(abortIf_fails (by decide)).mono fun _ h => h.2, fun _ _ => ⟨by simp, ensures_error⟩⟩
  · exact (genInsn_fails h fun r ok hr hnull => hfn ⟨r, ok, hr, hnull⟩).mono fun _ h => h.2

/-- Whatever the guest's code, `gen_target_code` keeps within the patch array
and the slots of a block, and leaves every block without pending patches. -/
theorem patch_bookkeeping (h : DispatchReach L s) (img : Mem) (ds : Decode) (tb : Nat) :
    (∀ t, GenPoint L img (s.placed tb) ds tb t → WithinBounds t) ∧
    s.cpuGenCode L img ds tb ≠ .error (.abort "node_patch overflow\n") ∧
    ∀ s', s.cpuGenCode L img ds tb = .ok s' → ∀ b ∈ s'.tbs, b.patchNum = 0 := by
  refine ⟨fun t ht => ht.within h.settled, fun he => ?_, fun s' hs' b hb => ?_⟩
  · refine genSuperblock_fails (fun _ h => h.2) (fun left t ds₁ hd => genInsn_noOverflow ?_) _ he rfl
    have hmax : PATCH_ARRAY_SIZE = 256 := rfl
    have := hd.patches
    omega
  · have hset := cpuGenCode_settled h.settled ds tb s' hs'
    obtain ⟨i, hi⟩ := List.getElem?_of_mem hb
    exact hset.balanced.counted i _ (s'.getElem?_blocks hi)

theorem DispatchReach.exists_make {s : State} (h : DispatchReach L s) (hlen : s.tbs.length < codeGenMaxBlocks)
    (hbuf : (s.codeGenPtr - L.codeGenBuffer).toNat < codeGenBufferMaxSize) (pc : Word) :
    ∃ s', DispatchReach L s' ∧ s'.tbs.map (·.pc) = s.tbs.map (·.pc) ++ [pc] ∧ s'.codeGenPtr = s.codeGenPtr := by
  obtain ⟨p, hp⟩ := makeTb_returns hlen hbuf pc pc NORMAL_TB_TAG
  obtain ⟨-, hs⟩ := makeTb_spec _ hp
  refine ⟨p.2, h.makeTb hp, ?_, ?_⟩
  · rw [hs, State.withNewTb, List.map_append]
    rfl
  · rw [hs, State.codeGenPtr_withNewTb]

/-- Three blocks, two of them in one chain. -/
theorem patch_bookkeeping_sample : ∃ s, DispatchReach .sample s ∧ (∃ pc, s.tbs.map (·.pc) = [pc, 0x1000, 0x9000]) ∧
    ∀ img ds tb, (∀ t, GenPoint .sample img (s.placed tb) ds tb t → WithinBounds t) ∧
      s.cpuGenCode .sample img ds tb ≠ .error (.abort "node_patch overflow\n") ∧
      ∀ s', s.cpuGenCode .sample img ds tb = .ok s' → ∀ b ∈ s'.tbs, b.patchNum = 0 := by
  obtain ⟨s₀, hs₀⟩ := codecachePrologueInit_returns (booted_boot .sample)
  have hr₀ : DispatchReach .sample s₀ := .codecachePrologueInit (booted_boot .sample) hs₀
  obtain ⟨eip, hs₀, -⟩ := codecachePrologueInit_spec _ _ hs₀
  have hpcs₀ : s₀.tbs.map (·.pc) = [eip] := by
    rw [hs₀, cachePrologue_eq]
    rfl
  have hptr₀ : s₀.codeGenPtr = Layout.sample.codeGenBuffer := by
    rw [hs₀, State.codeGenPtr_withNewTb, cachePrologue_eq]
    rfl
  have hlen {t : State} {pcs : List Word} (h : t.tbs.map (·.pc) = pcs) (hlt : pcs.length < 8) :
      t.tbs.length < codeGenMaxBlocks := by
    rw [← List.length_map (f := (·.pc)), h]
    exact hlt.trans (by decide)
  have hbuf {t : State} (h : t.codeGenPtr = Layout.sample.codeGenBuffer) :
      (t.codeGenPtr - Layout.sample.codeGenBuffer).toNat < codeGenBufferMaxSize := by
    rw [h, sub_self]
    decide
  obtain ⟨s₁, hr₁, hpcs₁, hptr₁⟩ := hr₀.exists_make (hlen hpcs₀ (by simp)) (hbuf hptr₀) 0x1000
  rw [hpcs₀] at hpcs₁
  rw [hptr₀] at hptr₁
  obtain ⟨s₂, hr₂, hpcs₂, -⟩ := hr₁.exists_make (hlen hpcs₁ (by simp)) (hbuf hptr₁) 0x9000
  rw [hpcs₁] at hpcs₂
  exact ⟨s₂, hr₂, ⟨eip, hpcs₂⟩, patch_bookkeeping hr₂⟩

end Unitrans
