/-
The strings in the pages of the loader. A round of the copy loop writes a run of
bytes that ends where the last one began, so a string, a list of them and the three
calls together write one run that ends at the first `p` (`copyArgs_spec`).
-/
import Unitrans.LinuxLoad
import Unitrans.Library.Ensures
import Mathlib.Algebra.BigOperators.Group.List.Basic

namespace Unitrans

open X86 Splice

theorem pageSize_eq : pageSize = 4096 := rfl

/-! ## One page -/

namespace ArgPages

/-- The bytes of all pages; a missing page reads as zeroes. -/
def flat (page : ArgPages) (q : Nat) : Byte :=
  match page (q / pageSize) with
  | some pg => pg (q % pageSize)
  | none => 0

/-- The page of the byte is there. -/
def Has (page : ArgPages) (q : Nat) : Prop := page (q / pageSize) ≠ none

theorem flat_of_some {page : ArgPages} {q : Nat} {pg} (h : page (q / pageSize) = some pg) :
    page.flat q = pg (q % pageSize) := by
  rw [flat, h]

theorem write_spec {page : ArgPages} {q : Nat} (h : page.Has q) {n : Nat} (hn : n ≤ q % pageSize) {bs : List Byte}
    (hbs : bs.length = n + 1) :
    ∃ page', page.write (some (q / pageSize)) (q % pageSize - n) bs = .ok page' ∧
      page'.flat = splice page.flat (q - n) bs ∧ ∀ r, page.Has r → page'.Has r := by
  obtain ⟨pg, hpg⟩ := Option.ne_none_iff_exists'.mp h
  have hle : q % pageSize - n + bs.length ≤ pageSize := by
    rw [pageSize_eq] at hn ⊢
    omega
  refine ⟨Function.update page (q / pageSize) (some (splice pg (q % pageSize - n) bs)), ?_, ?_, fun r hr => ?_⟩
  · simp only [write, hpg, if_pos hle]
  · funext r
    by_cases hr : r / pageSize = q / pageSize
    · have hiff : q % pageSize - n ≤ r % pageSize ↔ q - n ≤ r := by
        rw [pageSize_eq] at hr hn ⊢
        omega
      have hsub : q - n ≤ r → r % pageSize - (q % pageSize - n) = r - (q - n) := by
        rw [pageSize_eq] at hr hn ⊢
        omega
      rw [flat_of_some (by rw [hr, Function.update_self]), splice, splice, flat_of_some (hr ▸ hpg)]
      by_cases hle : q - n ≤ r
      · rw [if_pos hle, if_pos (hiff.mpr hle), hsub hle]
      · rw [if_neg hle, if_neg (fun h => hle (hiff.mp h))]
    · have hout : r < q - n ∨ q - n + bs.length ≤ r := by
        rw [pageSize_eq] at hr hn hle
        omega
      rw [splice_outside _ hout, flat, flat, Function.update_of_ne hr]
  · rw [Has]
    by_cases hk : r / pageSize = q / pageSize
    · rw [hk, Function.update_self]
      exact Option.some_ne_none _
    · rw [Function.update_of_ne hk]
      exact hr

/-- The pages hold `bs` from place `q` on, where there were other bytes or none. -/
structure Put (page : ArgPages) (q : Nat) (bs : List Byte) (page' : ArgPages) : Prop where
  flat : page'.flat = splice page.flat q bs
  kept : ∀ r, page.Has r → page'.Has r
  has : ∀ r, q ≤ r → r < q + bs.length → page'.Has r

theorem Put.nil (page : ArgPages) (q : Nat) : Put page q [] page :=
  ⟨(splice_nil _ _).symm, fun _ h => h, fun r h h' => absurd h' (by simpa using h)⟩

/-- Bytes below those that were put. -/
theorem Put.append {page page' page'' : ArgPages} {q : Nat} {as bs : List Byte} (h : Put page (q + as.length) bs page')
    (h' : Put page' q as page'') : Put page q (as ++ bs) page'' := by
  refine ⟨by rw [h'.flat, h.flat, splice_append], fun r hr => h'.kept r (h.kept r hr), fun r hr hr' => ?_⟩
  rw [List.length_append] at hr'
  rcases Nat.lt_or_ge r (q + as.length) with hlt | hge
  · exact h'.has r hr hlt
  · exact h'.kept r (h.has r hge (by omega))

end ArgPages

open ArgPages

/-! ## One string -/

/-- Where the next byte goes, it goes below `p`: into the page that was written last, or into
another one. -/
structure Ready (c : CopyState) : Prop where
  le : c.p ≤ MAX_ARG_PAGES * pageSize
  offset : c.offset = 0 ∨ 0 < c.offset ∧ c.offset = (c.p % pageSize : Nat) ∧ c.pag = some (c.p / pageSize) ∧ c.page.Has c.p

/-- The next byte goes to `p`. -/
structure Entered (c : CopyState) : Prop where
  lt : c.p < MAX_ARG_PAGES * pageSize
  offset : c.offset = (c.p % pageSize : Nat)
  pag : c.pag = some (c.p / pageSize)
  has : c.page.Has c.p

theorem enterPage_spec {c : CopyState} (h : Ready c) (hp : 0 < c.p) :
    ∃ c', CopyState.enterPage { c with p := c.p - 1 } = .ok c' ∧ c'.p = c.p - 1 ∧ Entered c' ∧
      c'.page.flat = c.page.flat ∧ ∀ r, c.page.Has r → c'.page.Has r := by
  have hle := h.le
  rcases h.offset with h₀ | ⟨hpos, hoff, hpag, hhas⟩
  · have hk : (c.p - 1) / pageSize < MAX_ARG_PAGES := by
      rw [pageSize_eq] at hle ⊢
      omega
    have hneg : c.offset - 1 < 0 := by omega
    simp only [CopyState.enterPage, if_pos hneg, Elems.load_eq _ hk, Except.ok_bind]
    cases hpg : c.page ((c.p - 1) / pageSize) with
    | some pg =>
      refine ⟨_, rfl, rfl, ⟨?_, rfl, rfl, ?_⟩, rfl, fun r hr => hr⟩
      · show c.p - 1 < _
        omega
      · show c.page _ ≠ none
        rw [hpg]
        exact Option.some_ne_none _
    | none =>
      simp only [Elems.store_eq _ hk, Except.ok_bind]
      refine ⟨_, rfl, rfl, ⟨?_, rfl, rfl, ?_⟩, ?_, fun r hr => ?_⟩
      · show c.p - 1 < _
        omega
      · show Function.update c.page _ _ _ ≠ none
        rw [Function.update_self]
        exact Option.some_ne_none _
      · funext r
        show ArgPages.flat (Function.update c.page _ _) r = _
        by_cases hr : r / pageSize = (c.p - 1) / pageSize
        · rw [flat_of_some (by rw [hr, Function.update_self]), ArgPages.flat, hr, hpg]
        · rw [ArgPages.flat, ArgPages.flat, Function.update_of_ne hr]
      · show Function.update c.page _ _ _ ≠ none
        have hne : r / pageSize ≠ (c.p - 1) / pageSize := fun heq => hr (heq ▸ hpg)
        rw [Function.update_of_ne hne]
        exact hr
  · have hmod : (c.p - 1) % pageSize = c.p % pageSize - 1 ∧ (c.p - 1) / pageSize = c.p / pageSize := by
      rw [pageSize_eq] at hoff ⊢
      omega
    have hneg : ¬ c.offset - 1 < 0 := by omega
    simp only [CopyState.enterPage, if_neg hneg]
    refine ⟨_, rfl, rfl, ⟨?_, ?_, ?_, ?_⟩, rfl, fun r hr => hr⟩
    · show c.p - 1 < _
      omega
    · show c.offset - 1 = ((c.p - 1) % pageSize : Nat)
      omega
    · show c.pag = some ((c.p - 1) / pageSize)
      rw [hmod.2, hpag]
    · show c.page ((c.p - 1) / pageSize) ≠ none
      rw [hmod.2]
      exact hhas

/-- A write of the byte at `p` and the `n` bytes before it. -/
theorem Entered.write {c : CopyState} (h : Entered c) {n : Nat} (hn : n ≤ c.p % pageSize) {bs : List Byte}
    (hbs : bs.length = n + 1) :
    ∃ page', c.page.write c.pag (c.offset.toNat - n) bs = .ok page' ∧ Put c.page (c.p - n) bs page' ∧
      ∀ c' : CopyState, c'.page = page' → c'.p = c.p - n → c'.offset = (c.offset.toNat - n : Nat) → c'.pag = c.pag → Ready c' := by
  have hoff : c.offset.toNat = c.p % pageSize := by
    rw [h.offset]
    rfl
  obtain ⟨page', hwrite, hflat, hkept⟩ := write_spec h.has hn hbs
  have hlt := h.lt
  have hnp : n ≤ c.p := le_trans hn (Nat.mod_le _ _)
  have hpage : ∀ r, c.p - n ≤ r → r ≤ c.p → r / pageSize = c.p / pageSize := fun r hr hr' => by
    rw [pageSize_eq] at hn ⊢
    omega
  have hhas : ∀ r, c.p - n ≤ r → r ≤ c.p → page'.Has r := fun r hr hr' => by
    rw [ArgPages.Has, hpage r hr hr']
    exact hkept _ h.has
  refine ⟨page', by rw [hoff, h.pag, hwrite], ⟨hflat, hkept, fun r hr hr' => hhas r hr (by omega)⟩,
    fun c' h₁ h₂ h₃ h₄ => ⟨by omega, ?_⟩⟩
  rw [hoff] at h₃
  rcases Nat.eq_or_lt_of_le hn with heq | hlt
  · left
    omega
  · refine .inr ⟨by omega, ?_, ?_, ?_⟩
    · rw [h₃, h₂]
      congr 1
      rw [pageSize_eq] at hlt ⊢
      omega
    · rw [h₄, h₂, h.pag, hpage _ (Nat.le_refl _) (by omega)]
    · rw [h₁, h₂]
      exact hhas _ (Nat.le_refl _) (by omega)

theorem copyString_spec (s : List Byte) : ∀ (len : Nat) {c : CopyState}, Ready c → len ≤ s.length → len ≤ c.p →
    ∃ c', copyString s len c = .ok c' ∧ Ready c' ∧ c'.p = c.p - len ∧ Put c.page (c.p - len) (s.take len) c'.page := by
  intro len
  induction len using Nat.strongRecOn with
  | ind len ih =>
    intro c hc hs hp
    rw [copyString]
    by_cases hlen : len = 0
    · rw [if_pos hlen, hlen]
      exact ⟨c, rfl, hc, rfl, Put.nil _ _⟩
    rw [if_neg hlen]
    obtain ⟨c₁, henter, hp₁, h₁, hflat₁, hkept₁⟩ := enterPage_spec hc (by omega)
    dsimp only
    rw [henter, Except.ok_bind]
    have hpos : 0 ≤ c₁.offset := by
      rw [h₁.offset]
      exact Int.natCast_nonneg _
    -- what is below the run goes on from where the run begins
    have hrest : ∀ (n : Nat) (c₂ : CopyState), n ≤ len - 1 → Ready c₂ → c₂.p = c₁.p - n →
        Put c₁.page (c₁.p - n) ((s.drop (len - 1 - n)).take (n + 1)) c₂.page →
        ∃ c', copyString s (len - 1 - n) c₂ = .ok c' ∧ Ready c' ∧ c'.p = c.p - len ∧
          Put c.page (c.p - len) (s.take len) c'.page := by
      intro n c₂ hn hc₂ hp₂ hput
      obtain ⟨c', hcopy, hc', hp', hput'⟩ := ih (len - 1 - n) (by omega) hc₂ (by omega) (by omega)
      refine ⟨c', hcopy, hc', by omega, ?_⟩
      have hput₀ : Put c.page (c₁.p - n) ((s.drop (len - 1 - n)).take (n + 1)) c₂.page :=
        ⟨by rw [hput.flat, hflat₁], fun r hr => hput.kept r (hkept₁ r hr), hput.has⟩
      have htake : s.take (len - 1 - n) ++ (s.drop (len - 1 - n)).take (n + 1) = s.take len := by
        rw [← List.take_add]
        congr 1
        omega
      have hstart : c₂.p - (len - 1 - n) = c.p - len := by omega
      rw [hstart] at hput'
      rw [← htake]
      refine Put.append ?_ hput'
      rw [List.length_take, Nat.min_eq_left (by omega), show c.p - len + (len - 1 - n) = c₁.p - n by omega]
      exact hput₀
    by_cases hone : len - 1 = 0 ∨ c₁.offset = 0
    · obtain ⟨page', hwrite, hput, hready⟩ := h₁.write (n := 0) (Nat.zero_le _)
        (show ((s.drop (len - 1)).take 1).length = 0 + 1 by rw [List.length_take, List.length_drop]; omega)
      rw [if_pos hone, Nat.sub_zero] at *
      rw [hwrite, Except.ok_bind]
      exact hrest 0 _ (Nat.zero_le _) (hready _ rfl rfl (Int.toNat_of_nonneg hpos).symm rfl) rfl hput
    · rw [if_neg hone]
      have hmin : (if ((len - 1 : Nat) : Int) > c₁.offset then c₁.offset.toNat else len - 1) ≤ c₁.offset.toNat ∧
          (if ((len - 1 : Nat) : Int) > c₁.offset then c₁.offset.toNat else len - 1) ≤ len - 1 := by
        split <;> omega
      generalize (if ((len - 1 : Nat) : Int) > c₁.offset then c₁.offset.toNat else len - 1) = n at hmin ⊢
      obtain ⟨page', hwrite, hput, hready⟩ := h₁.write (n := n) (by have := h₁.offset; omega)
        (show ((s.drop (len - 1 - n)).take (n + 1)).length = n + 1 by rw [List.length_take, List.length_drop]; omega)
      rw [hwrite, Except.ok_bind]
      exact hrest n _ hmin.2 (hready _ rfl rfl rfl rfl) rfl hput

/-! ## All strings -/

/-- The strings one after the other. -/
def concat (ss : List CString) : List Byte := ss.flatMap CString.bytes

theorem concat_append (ss ss' : List CString) : concat (ss ++ ss') = concat ss ++ concat ss' := List.flatMap_append

theorem length_concat_reverse (ss : List CString) : (concat ss.reverse).length = (concat ss).length := by
  rw [concat, concat, List.length_flatMap, List.length_flatMap, List.map_reverse, List.sum_reverse]

theorem CString.len_pos (s : CString) : 0 < s.len := by
  rw [CString.len, CString.bytes, List.length_append, List.length_singleton]
  omega

/-- Strings that fit are put below `p`; otherwise the result is 0. -/
theorem copyStrings_spec : ∀ (ss : List CString) {c : CopyState}, Ready c → ∃ page',
    copyStrings ss c = .ok (c.p - (concat ss).length, page') ∧
      ((concat ss).length ≤ c.p → Put c.page (c.p - (concat ss).length) (concat ss.reverse) page')
  | [], c, _ => ⟨c.page, rfl, fun _ => Put.nil _ _⟩
  | s :: rest, c, hc => by
    have hconcat : (concat (s :: rest)).length = s.len + (concat rest).length := by
      rw [concat, List.flatMap_cons, List.length_append]
      rfl
    rw [copyStrings, hconcat]
    by_cases hlt : c.p < s.len
    · rw [if_pos hlt, show c.p - (s.len + (concat rest).length) = 0 by omega]
      exact ⟨c.page, rfl, fun h => by omega⟩
    · rw [if_neg hlt]
      obtain ⟨c₁, hcopy, hc₁, hp₁, hput₁⟩ := copyString_spec s.bytes s.len hc (Nat.le_refl _) (by omega)
      obtain ⟨page', hrest, hput⟩ := copyStrings_spec rest hc₁
      rw [hcopy, Except.ok_bind]
      refine ⟨page', by rw [hrest, hp₁, Nat.sub_sub], fun h => ?_⟩
      have hrev : concat (s :: rest).reverse = concat rest.reverse ++ s.bytes := by
        rw [List.reverse_cons, concat_append]
        simp [concat]
      have hstart : c.p - (s.len + (concat rest).length) + (concat rest.reverse).length = c.p - s.len := by
        rw [length_concat_reverse]
        omega
      have htake : s.bytes.take s.len = s.bytes := List.take_length
      rw [htake] at hput₁
      rw [hrev]
      refine Put.append (by rwa [hstart]) ?_
      rw [← Nat.sub_sub, ← hp₁]
      exact hput (by omega)

theorem copyElfStrings_spec (argv : List CString) (page : ArgPages) {p : Nat} (hp : p ≤ MAX_ARG_PAGES * pageSize) :
    ∃ page', copyElfStrings argv page p = .ok (p - (concat argv).length, page') ∧
      ((concat argv).length ≤ p → Put page (p - (concat argv).length) (concat argv) page') := by
  rw [copyElfStrings]
  by_cases h₀ : p = 0
  · refine ⟨page, by rw [if_pos h₀, h₀, Nat.zero_sub], fun h => ?_⟩
    rw [List.eq_nil_of_length_eq_zero (show (concat argv).length = 0 by omega)]
    exact Put.nil _ _
  · rw [if_neg h₀]
    obtain ⟨page', hcopy, hput⟩ := copyStrings_spec argv.reverse
      (show Ready { page := page, p := p, offset := 0, pag := none } from ⟨hp, .inl rfl⟩)
    rw [length_concat_reverse, List.reverse_reverse] at *
    exact ⟨page', hcopy, hput⟩

/-- What the three calls put in the pages. -/
def allStrings (filename : CString) (argv envp : List CString) : List Byte := concat argv ++ concat envp ++ filename.bytes

theorem copyArgs_spec (filename : CString) (argv envp : List CString) :
    ∃ page, copyArgs filename argv envp = .ok (loaderP - (allStrings filename argv envp).length, page) ∧
      ((allStrings filename argv envp).length ≤ loaderP →
        Put (fun _ => none) (loaderP - (allStrings filename argv envp).length) (allStrings filename argv envp) page) := by
  have hp : loaderP ≤ MAX_ARG_PAGES * pageSize := by decide
  obtain ⟨page₁, h₁, hput₁⟩ := copyElfStrings_spec [filename] (fun _ => none) hp
  obtain ⟨page₂, h₂, hput₂⟩ := copyElfStrings_spec envp page₁ (le_trans (Nat.sub_le _ (concat [filename]).length) hp)
  obtain ⟨page₃, h₃, hput₃⟩ := copyElfStrings_spec argv page₂
    (le_trans (Nat.sub_le _ (concat envp).length) (le_trans (Nat.sub_le _ (concat [filename]).length) hp))
  have hone : concat [filename] = filename.bytes := by simp [concat]
  rw [hone] at h₁ h₂ h₃ hput₁ hput₂ hput₃
  have hlen : (allStrings filename argv envp).length =
      filename.bytes.length + (concat envp).length + (concat argv).length := by
    rw [allStrings, List.length_append, List.length_append]
    omega
  refine ⟨page₃, ?_, fun h => ?_⟩
  · rw [copyArgs, h₁, Except.ok_bind]
    dsimp only
    rw [h₂, Except.ok_bind]
    dsimp only
    rw [h₃, hlen, Nat.sub_sub, Nat.sub_sub, Nat.add_assoc]
  · have hput : Put (fun _ => none) (loaderP - filename.bytes.length - (concat envp).length)
        (concat envp ++ filename.bytes) page₂ := by
      refine Put.append ?_ (hput₂ (by omega))
      rw [Nat.sub_add_cancel (by omega)]
      exact hput₁ (by omega)
    rw [hlen, allStrings, List.append_assoc, ← Nat.sub_sub, ← Nat.sub_sub]
    refine Put.append ?_ (hput₃ (by omega))
    rw [Nat.sub_add_cancel (by omega)]
    exact hput

end Unitrans
