/-
The stack of `get_retrans_tb` gets, for each path that the travel found, the blocks of
the path without the links at its far end that are no jumps, and a NULL. The check comes
after the travel and is about the nodes only, so it never reports what goes wrong:
whatever does not fit has been written by then, or is written to the stack afterwards.
-/
import Unitrans.RetransTravel
import Mathlib.Data.List.DropRight

namespace Unitrans

open X86 Walks

/-- The path up to the last link that is a jump. -/
def Path.trimmed (w : Path) : Path := List.rdropWhile (fun e => e.2 == CONT_TRANS_TAG) w

/-- The places a path takes in the stack: its blocks, the start block and the NULL. -/
def Path.slots (w : Path) : Nat := if w.trimmed = [] then 0 else w.trimmed.length + 2

/-- There are places for what is found from the block. -/
structure LinkGraph.Fits (g : LinkGraph) (startTb : Nat) : Prop where
  nodes : (g.paths startTb).length ≤ PATH_DEPTH * LEAF_MAX
  leaves : (g.leafPaths startTb).length ≤ LEAF_MAX
  stack : ((g.leafPaths startTb).map Path.slots).sum ≤ RETRANS_STACK_MAX

theorem trimmed_concat (w : Path) (e : Nat × Word) :
    Path.trimmed (w ++ [e]) = if e.2 = CONT_TRANS_TAG then w.trimmed else w ++ [e] := by
  unfold Path.trimmed
  rw [List.rdropWhile_concat]
  exact if_congr beq_iff_eq rfl rfl

variable {g : LinkGraph} {startTb : Nat} {walk : Nat → Path} {t : Travel}

/-- The node for the path up to the last jump, if there is a jump. -/
theorem Travelled.trim_spec (h : Travelled g startTb walk t) : ∀ {fuel k : Nat}, k < t.nodeIdx → (walk k).length < fuel →
    (t.trim fuel k = .ok none ∧ (walk k).trimmed = []) ∨
      ∃ m < t.nodeIdx, t.trim fuel k = .ok (some m) ∧ (walk k).trimmed = walk m ∧ walk m ≠ [] := by
  intro fuel
  induction fuel with
  | zero => exact fun _ hlt => absurd hlt (Nat.not_lt_zero _)
  | succ fuel ih =>
    intro k hk hfuel
    have hroom := h.room
    unfold Travel.trim
    rw [Elems.load_eq _ (by omega), Except.ok_bind]
    rcases (h.node k hk).link with ⟨hnil, hnext, hpatch⟩ | ⟨m, hm, hnext, hwalk⟩
    · rw [if_pos hpatch, hnext, hnil]
      exact .inl ⟨rfl, rfl⟩
    · by_cases hpatch : (t.nodes k).patchNum = CONT_TRANS_TAG
      · rw [hwalk, List.length_append, List.length_singleton] at hfuel
        rw [if_pos hpatch, hnext, hwalk, trimmed_concat, if_pos hpatch]
        exact ih (by omega) (by omega)
      · rw [if_neg hpatch]
        refine .inr ⟨k, hk, rfl, ?_, ?_⟩
        · rw [hwalk, trimmed_concat, if_neg hpatch]
        · rw [hwalk]
          exact List.append_ne_nil_of_right_ne_nil _ (List.cons_ne_nil _ _)

/-- The blocks of a path are in the stack from `base` on, the start block first. -/
structure RetransStack.Holds (st : RetransStack) (startTb base : Nat) (w : Path) : Prop where
  tb : ∀ i ≤ w.length, st.tbs (base + i) = some (stop startTb (w.take i))
  patch : ∀ i, (hi : i < w.length) → st.patch (base + 1 + i) = (w[i]).2

/-- Outside the places from `base` to `last` the stacks are the same. -/
def RetransStack.SameBut (st st' : RetransStack) (base last : Nat) : Prop :=
  ∀ j, j < base ∨ last < j → st'.tbs j = st.tbs j ∧ st'.patch j = st.patch j

theorem Travelled.push_spec (h : Travelled g startTb walk t) : ∀ {fuel k : Nat} (base : Nat) (st : RetransStack), k < t.nodeIdx →
    (walk k).length < fuel → base + (walk k).length < RETRANS_STACK_MAX →
      ∃ st', t.push fuel k (base + (walk k).length) st = .ok st' ∧ st'.index = st.index ∧
        st'.Holds startTb base (walk k) ∧ st.SameBut st' base (base + (walk k).length) := by
  intro fuel
  induction fuel with
  | zero => exact fun _ _ _ hlt => absurd hlt (Nat.not_lt_zero _)
  | succ fuel ih =>
    intro k base st hk hfuel hroom
    have hnodes := h.room
    have htb := (h.node k hk).tb
    unfold Travel.push
    rw [Elems.load_eq _ (by omega), Except.ok_bind, Elems.store_eq _ hroom, Except.ok_bind]
    rcases (h.node k hk).link with ⟨hnil, hnext, -⟩ | ⟨m, hm, hnext, hwalk⟩
    · rw [hnext]
      refine ⟨_, rfl, rfl, ⟨fun i hi => ?_, fun i hi => ?_⟩, fun j hj => ⟨?_, rfl⟩⟩
      · rw [hnil] at hi htb ⊢
        obtain rfl : i = 0 := Nat.le_zero.mp hi
        show Function.update st.tbs base _ base = _
        rw [Function.update_self, htb]
        rfl
      · rw [hnil] at hi
        exact absurd hi (Nat.not_lt_zero i)
      · rw [hnil] at hj ⊢
        exact Function.update_of_ne (by simp at hj ⊢; omega) ..
    · rw [hwalk, List.length_append, List.length_singleton] at hfuel hroom ⊢
      rw [hnext]
      dsimp only
      rw [Elems.store_eq _ hroom, Except.ok_bind, if_neg (by omega), show base + ((walk m).length + 1) - 1 = base + (walk m).length by omega]
      obtain ⟨st', hpush, hindex, ⟨hheld, hpatch⟩, hsame⟩ := ih base
        ⟨Function.update st.tbs (base + ((walk m).length + 1)) (some (t.nodes k).tb),
          Function.update st.patch (base + ((walk m).length + 1)) (t.nodes k).patchNum, st.index⟩
        (show m < t.nodeIdx by omega) (by omega) (by omega)
      refine ⟨st', hpush, hindex, ⟨fun i hi => ?_, fun i hi => ?_⟩, fun j hj => ?_⟩
      · rw [List.length_append, List.length_singleton] at hi
        rcases Nat.lt_or_ge (walk m).length i with hlast | hle
        · obtain rfl : i = (walk m).length + 1 := by omega
          rw [(hsame _ (.inr (by omega))).1, List.take_of_length_le (by rw [List.length_append, List.length_singleton]),
            stop_concat]
          exact Function.update_self ..
        · rw [hheld i hle, List.take_append_of_le_length hle]
      · rw [List.length_append, List.length_singleton] at hi
        rcases Nat.lt_or_ge i (walk m).length with hlt | hge
        · rw [hpatch i hlt, List.getElem_append_left hlt]
        · obtain rfl : i = (walk m).length := by omega
          rw [(hsame _ (.inr (by omega))).2, List.getElem_concat_length rfl, Nat.add_assoc, Nat.add_comm 1]
          exact Function.update_self ..
      · have hne : j ≠ base + ((walk m).length + 1) := by omega
        obtain ⟨htbs, hpatches⟩ := hsame j (by omega)
        rw [htbs, hpatches]
        exact ⟨Function.update_of_ne hne .., Function.update_of_ne hne ..⟩

/-- The places of a path from `base` on. -/
structure RetransStack.Segment (st : RetransStack) (startTb base : Nat) (w : Path) : Prop extends st.Holds startTb base w where
  null : st.tbs (base + w.length + 1) = none

theorem Travelled.pushLeaf_spec (h : Travelled g startTb walk t) {i : Nat} (hi : i < t.leafIdx) (st : RetransStack) (count : Nat)
    (hindex : st.index ≤ RETRANS_STACK_MAX) :
    if st.index + (walk (t.leaves i)).slots ≤ RETRANS_STACK_MAX then
      ∃ st' count', t.pushLeaf (st, count) i = .ok (st', count') ∧ st'.index = st.index + (walk (t.leaves i)).slots ∧
        st.SameBut st' st.index st'.index ∧
        ((walk (t.leaves i)).trimmed ≠ [] → st'.Segment startTb st.index (walk (t.leaves i)).trimmed)
    else t.pushLeaf (st, count) i = overrun := by
  have hleaf := h.leaf i hi
  have hroom := h.room
  have hleaves := h.leafRoom
  have hle := (h.node _ hleaf).le
  unfold Travel.pushLeaf Path.slots
  dsimp only
  rw [Elems.load_eq _ (by omega), Except.ok_bind]
  rcases h.trim_spec hleaf (Nat.lt_succ_of_le hle) with ⟨htrim, hnil⟩ | ⟨m, hm, htrim, hwalk, hne⟩
  · rw [if_pos hnil, Nat.add_zero, if_pos hindex, htrim]
    exact ⟨st, count, rfl, rfl, fun _ _ => ⟨rfl, rfl⟩, fun hne => absurd hnil hne⟩
  · have hdepth := (h.node m hm).depth
    have hlen := (h.node m hm).le
    rw [hwalk, if_neg hne, htrim, Except.ok_bind]
    dsimp only
    rw [Elems.load_eq _ (by omega), Except.ok_bind, hdepth]
    by_cases hfits : st.index + ((walk m).length + 2) ≤ RETRANS_STACK_MAX
    · rw [if_pos hfits, Elems.store_eq _ (by omega), Except.ok_bind]
      obtain ⟨st', hpush, hindex', hholds, hsame⟩ := h.push_spec st.index
        ⟨Function.update st.tbs (st.index + (walk m).length + 1) none, st.patch, st.index + (walk m).length + 2⟩ hm
        (Nat.lt_succ_of_le hlen) (show st.index + (walk m).length < _ by omega)
      rw [hpush]
      refine ⟨st', count + 1, rfl, hindex', fun j hj => ?_, fun _ => ⟨hholds, ?_⟩⟩
      · obtain ⟨htbs, hpatch⟩ := hsame j (by rw [hindex'] at hj; dsimp only at hj; omega)
        refine ⟨?_, hpatch⟩
        rw [htbs]
        exact Function.update_of_ne (by rw [hindex'] at hj; dsimp only at hj; omega) ..
      · rw [(hsame _ (.inr (by omega))).1]
        exact Function.update_self ..
    · rw [if_neg hfits, Elems.store, if_neg (by omega)]
      rfl

theorem RetransStack.Segment.congr {st st' : RetransStack} {base : Nat} {w : Path} (h : st.Segment startTb base w)
    (hsame : ∀ j < base + w.length + 2, st'.tbs j = st.tbs j ∧ st'.patch j = st.patch j) : st'.Segment startTb base w := by
  obtain ⟨⟨tb, patch⟩, null⟩ := h
  refine ⟨⟨fun i hi => ?_, fun i hi => ?_⟩, ?_⟩
  · rw [(hsame _ (by omega)).1]
    exact tb i hi
  · rw [(hsame _ (by omega)).2]
    exact patch i hi
  · rw [(hsame _ (by omega)).1]
    exact null

/-- The stack holds the paths one after the other from `base` on. -/
def RetransStack.Lists (st : RetransStack) (startTb : Nat) : Nat → List Path → Prop
  | base, [] => st.index = base
  | base, w :: ws => st.Segment startTb base w ∧ st.Lists startTb (base + w.length + 2) ws

/-- What the stack holds of the paths. -/
def segments (ws : List Path) : List Path := (ws.map Path.trimmed).filter fun w => w ≠ []

theorem segments_cons (w : Path) (ws : List Path) :
    segments (w :: ws) = if w.trimmed = [] then segments ws else w.trimmed :: segments ws := by
  unfold segments
  rw [List.map_cons, List.filter_cons]
  by_cases h : w.trimmed = []
  · simp [h]
  · simp [h]

/-- The leaves are pushed one after the other until the stack is full. -/
theorem Travelled.pushLeaves_spec (h : Travelled g startTb walk t) : ∀ (is : List Nat), (∀ i ∈ is, i < t.leafIdx) →
    ∀ (st : RetransStack) (count : Nat), st.index ≤ RETRANS_STACK_MAX →
      if st.index + ((is.map fun i => walk (t.leaves i)).map Path.slots).sum ≤ RETRANS_STACK_MAX then
        ∃ st' count', is.foldlM t.pushLeaf (st, count) = .ok (st', count') ∧
          (∀ j < st.index, st'.tbs j = st.tbs j ∧ st'.patch j = st.patch j) ∧
          st'.Lists startTb st.index (segments (is.map fun i => walk (t.leaves i)))
      else is.foldlM t.pushLeaf (st, count) = overrun
  | [], _, st, count, hindex => by
    rw [List.map_nil, List.map_nil, List.sum_nil, Nat.add_zero, if_pos hindex]
    exact ⟨st, count, rfl, fun _ _ => ⟨rfl, rfl⟩, rfl⟩
  | i :: is, hmem, st, count, hindex => by
    have hfirst := h.pushLeaf_spec (hmem i List.mem_cons_self) st count hindex
    rw [List.map_cons, List.map_cons, List.sum_cons, List.foldlM_cons]
    by_cases hfits : st.index + (walk (t.leaves i)).slots ≤ RETRANS_STACK_MAX
    · rw [if_pos hfits] at hfirst
      obtain ⟨st₁, count₁, hpush, hindex₁, hsame₁, hsegment⟩ := hfirst
      have hrest := h.pushLeaves_spec is (fun j hj => hmem j (List.mem_cons_of_mem _ hj)) st₁ count₁ (by omega)
      rw [hpush, Except.ok_bind]
      by_cases hall : st.index + ((walk (t.leaves i)).slots + ((is.map fun i => walk (t.leaves i)).map Path.slots).sum) ≤
          RETRANS_STACK_MAX
      · rw [if_pos (by omega)] at hrest
        obtain ⟨st', count', hrun, hsame, hlists⟩ := hrest
        rw [if_pos hall, hrun]
        refine ⟨st', count', rfl, fun j hj => ?_, ?_⟩
        · obtain ⟨htbs, hpatch⟩ := hsame j (by omega)
          obtain ⟨htbs₁, hpatch₁⟩ := hsame₁ j (.inl hj)
          exact ⟨htbs.trans htbs₁, hpatch.trans hpatch₁⟩
        · unfold Path.slots at hindex₁
          rw [segments_cons]
          by_cases hnil : (walk (t.leaves i)).trimmed = []
          · rw [if_pos hnil] at hindex₁ ⊢
            rw [hindex₁] at hlists
            exact hlists
          · rw [if_neg hnil] at hindex₁ ⊢
            refine ⟨(hsegment hnil).congr fun j hj => hsame j (by omega), ?_⟩
            rw [hindex₁] at hlists
            exact hlists
      · rw [if_neg (by omega)] at hrest
        rw [if_neg hall]
        exact hrest
    · rw [if_neg hfits] at hfirst
      rw [if_neg (by omega), hfirst]
      rfl

/-- The run of `get_retrans_tb` from an empty stack. -/
theorem getRetransTb_spec (g : LinkGraph) (startTb : Fin g.tbs.length) (junk : Travel) (st : RetransStack) (hindex : st.index = 0) :
    (g.Fits startTb ∧ ∃ n st' ws, getRetransTb g.tbs junk st startTb = .ok (n, st') ∧
      ws.Perm (g.leafPaths startTb) ∧ st'.Lists startTb 0 (segments ws)) ∨
    (¬ g.Fits startTb ∧ getRetransTb g.tbs junk st startTb = overrun) := by
  unfold getRetransTb
  rcases Travelled.loop (PATH_DEPTH * LEAF_MAX + 1) (Travelled.start junk startTb.isLt) (Nat.lt_succ_self _) with
    ⟨walk, t, hloop, h, hdone⟩ | ⟨herr, hmany⟩
  · obtain ⟨hnodes, hleaves, hperm⟩ := h.finished hdone
    have hroom := h.room
    have hleafRoom := h.leafRoom
    have hpush := h.pushLeaves_spec (List.range t.leafIdx) (fun i hi => List.mem_range.mp hi) st 0 (by omega)
    have hsum : (((List.range t.leafIdx).map fun i => walk (t.leaves i)).map Path.slots).sum =
        ((g.leafPaths startTb).map Path.slots).sum := (hperm.map _).sum_eq
    have hcheck : abortIf (t.nodeIdx > PATH_DEPTH * LEAF_MAX) "retrans node overflow\n" = .ok () := by
      unfold abortIf
      rw [decide_eq_false (by omega)]
      rfl
    rw [hloop, Except.ok_bind, hcheck, Except.ok_bind]
    rw [hindex, Nat.zero_add, hsum] at hpush
    by_cases hfits : ((g.leafPaths startTb).map Path.slots).sum ≤ RETRANS_STACK_MAX
    · rw [if_pos hfits] at hpush
      obtain ⟨st', count', hrun, -, hlists⟩ := hpush
      rw [hrun]
      exact .inl ⟨⟨by omega, by omega, hfits⟩, _, st', _, rfl, hperm, hlists⟩
    · rw [if_neg hfits] at hpush
      rw [hpush]
      exact .inr ⟨fun hall => hfits hall.stack, rfl⟩
  · rw [herr]
    refine .inr ⟨fun hall => ?_, rfl⟩
    rcases hmany with hmany | hmany
    · exact absurd hall.nodes (by omega)
    · exact absurd hall.leaves (by omega)

/-- The run writes inside the arrays only, or reports that there are too many nodes before it writes elsewhere. -/
def StaysInBounds (r : Result (Nat × RetransStack)) : Prop :=
  (∃ a, r = .ok a) ∨ r = .error (.abort "retrans node overflow\n")

/-- The run stays in bounds if and only if there are places for all that it finds. -/
theorem getRetransTb_inBounds_iff (g : LinkGraph) (startTb : Fin g.tbs.length) (junk : Travel) (st : RetransStack) :
    StaysInBounds (getRetransTb g.tbs junk { st with index := 0 } startTb) ↔ g.Fits startTb := by
  rcases getRetransTb_spec g startTb junk { st with index := 0 } rfl with ⟨hfits, n, st', ws, hrun, -⟩ | ⟨hfits, hrun⟩
  · exact iff_of_true (.inl ⟨_, hrun⟩) hfits
  · refine iff_of_false ?_ hfits
    rw [hrun]
    rintro (⟨a, ha⟩ | habort)
    · cases ha
    · cases habort

/-- A block that jumps to itself from 8 places. -/
def eightLoops : TranslationBlock := { pc := 0x8048000, jmpFrom := fun _ => some 0, jmpFromIndex := 8 }

def eightLoopsGraph : LinkGraph where
  tbs := [eightLoops]
  few b hb := by
    rw [List.mem_singleton.mp hb]
    decide
  links b hb i _ := by
    rw [List.mem_singleton.mp hb]
    exact ⟨0, Nat.one_pos, rfl⟩

theorem trimmed_of_jumps {w : Path} (h : ∀ e ∈ w, e.2 ≠ CONT_TRANS_TAG) : w.trimmed = w := by
  induction w using List.reverseRecOn with
  | nil => rfl
  | append_singleton w e _ =>
    rw [trimmed_concat, if_neg (h e (List.mem_append_right _ (List.mem_singleton_self e)))]

theorem eightLoops_jumps {v : Nat} : ∀ e ∈ eightLoopsGraph.preds v, e = (0, 0) := by
  intro e he
  unfold LinkGraph.preds at he
  split at he
  · cases he
  · rename_i b hb
    obtain ⟨i, -, rfl⟩ := List.mem_map.mp he
    rw [List.mem_singleton.mp (List.mem_of_getElem? hb)]
    rfl

/-- There are 4096 paths of 6 places each. -/
theorem not_fits_eightLoops : ¬ eightLoopsGraph.Fits 0 := by
  intro h
  have hedges : ∀ v, v = 0 → (eightLoopsGraph.preds v).length = 8 ∧ ∀ e ∈ eightLoopsGraph.preds v, e.1 = 0 := fun v hv =>
    ⟨by rw [hv]; rfl, fun e he => by rw [eightLoops_jumps e he]⟩
  obtain ⟨hlen, hall⟩ := maximal_regular (by decide) hedges (r := PATH_DEPTH) rfl
  have hjumps : ∀ {v : Nat} {w : Path}, Is eightLoopsGraph.preds v w → ∀ e ∈ w, e.2 ≠ CONT_TRANS_TAG := by
    intro v w
    induction w generalizing v with
    | nil => exact fun _ e he => absurd he List.not_mem_nil
    | cons e' w ih =>
      rintro ⟨hfirst, hrest⟩ e he
      rcases List.mem_cons.mp he with rfl | he
      · rw [eightLoops_jumps e hfirst]
        decide
      · exact ih hrest e he
  have hslots : (eightLoopsGraph.leafPaths 0).map Path.slots = (eightLoopsGraph.leafPaths 0).map fun _ => 6 := by
    refine List.map_congr_left fun w hw => ?_
    have hw4 : w.length = 4 := hall w hw
    have htrim := trimmed_of_jumps (hjumps (maximal_spec hw).1)
    have hne : w ≠ [] := by
      intro hnil
      rw [hnil] at hw4
      cases hw4
    unfold Path.slots
    rw [htrim, if_neg hne, hw4]
  have hlen : (eightLoopsGraph.leafPaths 0).length = 8 ^ PATH_DEPTH := hlen
  have := h.stack
  rw [hslots, List.map_const', List.sum_replicate_nat, hlen] at this
  exact absurd this (by decide)

theorem not_getRetransTb_inBounds : ¬ ∀ (g : LinkGraph) (startTb : Fin g.tbs.length) (junk : Travel) (st : RetransStack),
    StaysInBounds (getRetransTb g.tbs junk { st with index := 0 } startTb) := by
  intro h
  let junk : Travel := ⟨fun _ => ⟨0, none, 0, 0⟩, 0, fun _ => 0, 0, fun _ => 0, 0, 0⟩
  have hrun := h eightLoopsGraph ⟨0, Nat.one_pos⟩ junk {}
  rcases getRetransTb_spec eightLoopsGraph ⟨0, Nat.one_pos⟩ junk {} rfl with ⟨hfits, -⟩ | ⟨-, herr⟩
  · exact not_fits_eightLoops hfits
  · have herr : getRetransTb eightLoopsGraph.tbs junk { ({} : RetransStack) with index := 0 } 0 = overrun := herr
    rw [herr] at hrun
    rcases hrun with ⟨a, ha⟩ | habort
    · cases ha
    · cases habort

end Unitrans
