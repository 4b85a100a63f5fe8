/-
`walk_memory_regions`. A callback that returns something else than 0 stops the
walk (`stops_walk`); one that does not is called for the maximal runs of pages
with equal flags (`walk_quiet`), but at addresses put together with the shift of
page numbers instead of that of addresses. They are the addresses of the
pages if and only if the flags of the pages from 1023 on are all the same
(`walkExact_iff`).
-/
import Unitrans.Library.MaximalRuns
import Unitrans.PageFlags

namespace Unitrans

open X86 RadixTree MaximalRuns

/-! ## Stopping -/

/-- The callback, called for the regions in turn up to its first result that is not 0. -/
def stopAt (fn : Callback) : List Region → List Region → Int × List Region
  | calls, [] => (0, calls)
  | calls, r :: regions =>
    if fn calls r ≠ 0 then (fn calls r, calls ++ [r]) else stopAt fn (calls ++ [r]) regions

/-- A callback that always returns 0. -/
def quiet : Callback := fun _ _ => 0

theorem stopAt_append (fn : Callback) (calls l₁ l₂ : List Region) : stopAt fn calls (l₁ ++ l₂) =
    if (stopAt fn calls l₁).1 ≠ 0 then stopAt fn calls l₁ else stopAt fn (stopAt fn calls l₁).2 l₂ := by
  induction l₁ generalizing calls with
  | nil => rfl
  | cons r l₁ ih =>
    rw [List.cons_append, stopAt, stopAt]
    by_cases h : fn calls r ≠ 0
    · rw [if_pos h, if_pos h, if_pos h]
    · rw [if_neg h, if_neg h, ih]

theorem stopAt_quiet (calls l : List Region) : stopAt quiet calls l = (0, calls ++ l) := by
  induction l generalizing calls with
  | nil => simp [stopAt]
  | cons r l ih =>
    rw [stopAt, if_neg (by simp [quiet]), ih]
    simp

/-- `x` is what a walk from `data` comes to with the callback `fn` where it comes to `y` with a quiet one. -/
structure Stops (fn : Callback) (data : WalkData) (x y : Int × WalkData) : Prop where
  returns : y.1 = 0
  calls : ∃ new, y.2.calls = data.calls ++ new ∧ (x.1, x.2.calls) = stopAt fn data.calls new
  same : x.1 = 0 → x.2 = y.2

variable {fn : Callback}

theorem Stops.bind {data : WalkData} {x y : Int × WalkData} {f g : WalkData → Int × WalkData}
    (h : Stops fn data x y) (hf : ∀ d, Stops fn d (f d) (g d)) :
    Stops fn data (if x.1 ≠ 0 then x else f x.2) (if y.1 ≠ 0 then y else g y.2) := by
  obtain ⟨new, hnew, hstop⟩ := h.calls
  obtain ⟨h₁, h₂⟩ := Prod.mk.inj hstop
  obtain ⟨new', hnew', hstop'⟩ := (hf y.2).calls
  have hall : (g y.2).2.calls = data.calls ++ (new ++ new') := by rw [hnew', hnew, List.append_assoc]
  rw [if_neg (not_not.mpr h.returns)]
  by_cases hx : x.1 = 0
  · rw [if_neg (not_not.mpr hx), h.same hx]
    refine ⟨(hf y.2).returns, ⟨new ++ new', hall, ?_⟩, (hf y.2).same⟩
    rw [stopAt_append, if_neg (not_not.mpr (h₁ ▸ hx)), ← h₂, h.same hx]
    exact hstop'
  · rw [if_pos hx]
    refine ⟨(hf y.2).returns, ⟨new ++ new', hall, ?_⟩, fun h => absurd h hx⟩
    rw [stopAt_append, if_pos (h₁ ▸ hx)]
    exact hstop

theorem Stops.refl (fn : Callback) (data : WalkData) : Stops fn data (0, data) (0, data) :=
  ⟨rfl, ⟨[], by simp, rfl⟩, fun _ => rfl⟩

theorem stops_end (fn : Callback) (data : WalkData) (end_ newProt : Word) :
    Stops fn data (walkMemoryRegionsEnd fn data end_ newProt) (walkMemoryRegionsEnd quiet data end_ newProt) := by
  simp only [walkMemoryRegionsEnd]
  by_cases hs : data.start ≠ -1
  · have hquiet : ¬ quiet data.calls ⟨data.start, end_, data.prot⟩ ≠ 0 := not_not.mpr rfl
    rw [if_pos hs, if_pos hs, if_neg hquiet]
    refine ⟨rfl, ⟨[⟨data.start, end_, data.prot⟩], rfl, ?_⟩, fun h => ?_⟩
    · rw [stopAt]
      split <;> rfl
    · by_cases hr : fn data.calls ⟨data.start, end_, data.prot⟩ = 0
      · rw [if_neg (not_not.mpr hr)]
      · rw [if_pos hr] at h
        exact absurd h hr
  · rw [if_neg hs, if_neg hs]
    exact ⟨rfl, ⟨[], by simp, rfl⟩, fun _ => rfl⟩

theorem stops_for {f g : Nat → WalkData → Int × WalkData} (h : ∀ i d, Stops fn d (f i d) (g i d)) (n i : Nat)
    (data : WalkData) : Stops fn data (walkFor f n i data) (walkFor g n i data) := by
  induction n generalizing i data with
  | zero => exact .refl fn data
  | succ n ih => exact (h i data).bind (ih (i + 1))

theorem stops_level (fn : Callback) : ∀ (level : Nat) (t : RadixTree.Tree PageDesc level) (base : Word) (data : WalkData),
    Stops fn data (walkMemoryRegions₁ fn level t base data) (walkMemoryRegions₁ quiet level t base data)
  | 0, none, base, data => stops_end fn data base 0
  | 0, some pd, base, data => stops_for (fun i d => by
      simp only
      split
      · exact stops_end ..
      · exact .refl ..) _ _ data
  | _ + 1, none, base, data => stops_end fn data base 0
  | level + 1, some pp, base, data => stops_for (fun i d => stops_level fn level (pp i) _ d) _ _ data

theorem stops_walk (fn : Callback) (m : L1Map) : Stops fn {} (walkMemoryRegions fn m) (walkMemoryRegions quiet m) :=
  (stops_for (fun i d => stops_level fn l2Levels (m i) _ d) _ _ _).bind fun d => stops_end fn d 0 0

/-! ## The quiet walk is a scan -/

/-- The address the walk gives the page `k`. -/
def walkAddr (k : Nat) : Word :=
  BitVec.ofNat 32 (k / 1024) <<< V_L1_SHIFT ||| BitVec.ofNat 32 (k % 1024) <<< TARGET_PAGE_BITS

/-- The end it gives a region, which is 0 where the address space ends. -/
def walkEnd (k : Nat) : Word := if k = 2 ^ 20 then 0 else walkAddr k

def walkRegion (r : Run Word) : Region := ⟨walkAddr r.first, walkEnd r.past, r.value⟩

theorem walkAddr_lt {k : Nat} (h : k < 2 ^ 20) : (walkAddr k).toNat < 2 ^ 22 := by
  rw [walkAddr, BitVec.toNat_or]
  apply Nat.or_lt_two_pow
  · rw [BitVec.toNat_shiftLeft, BitVec.toNat_ofNat, Nat.shiftLeft_eq]
    have : V_L1_SHIFT = 10 := rfl
    rw [this]
    omega
  · rw [BitVec.toNat_shiftLeft, BitVec.toNat_ofNat, Nat.shiftLeft_eq]
    have : TARGET_PAGE_BITS = 12 := rfl
    rw [this]
    omega

/-- The walk is in the run the scan is in, and has called back for those it has closed. -/
structure Tracks (data : WalkData) (s : Scan Word) : Prop where
  start : data.start = match s.opened with
    | none => -1
    | some (a, _) => walkAddr a
  inside : ∀ a v, s.opened = some (a, v) → a < 2 ^ 20
  prot : data.prot = s.current 0
  calls : data.calls = s.closed.map walkRegion

theorem end_quiet {data : WalkData} {s : Scan Word} (h : Tracks data s) (k : Nat) (v : Word) :
    walkMemoryRegionsEnd quiet data (walkEnd k) v =
      (0, ⟨if v ≠ 0 then walkEnd k else -1, v, (s.close 0 k v).closed.map walkRegion⟩) := by
  rw [walkMemoryRegionsEnd, Scan.close, List.map_append, ← h.calls]
  cases hs : s.opened with
  | none =>
    have hstart : data.start = -1 := by rw [h.start, hs]
    rw [if_neg (not_not.mpr hstart)]
    simp
  | some p =>
    have hstart : data.start = walkAddr p.1 := by rw [h.start, hs]
    have hcur : data.prot = p.2 := by rw [h.prot, Scan.current, hs]; rfl
    have hne : walkAddr p.1 ≠ -1 := fun he => by
      have := walkAddr_lt (h.inside p.1 p.2 hs)
      rw [he] at this
      exact absurd this (by decide)
    rw [if_pos (hstart ▸ hne), hstart, hcur]
    simp only [quiet, ne_eq, not_true_eq_false, if_false]
    rfl

theorem tracks_end {data : WalkData} {s : Scan Word} {k : Nat} {v : Word} (h : Tracks data s)
    (hk : v = 0 ∨ k < 2 ^ 20) : ∃ data', walkMemoryRegionsEnd quiet data (walkEnd k) v = (0, data') ∧
      Tracks data' (s.close 0 k v) := by
  refine ⟨_, end_quiet h k v, ?_, fun a w ha => ?_, ?_, rfl⟩
  · rw [Scan.close]
    by_cases hv : v = 0
    · rw [if_neg (not_not.mpr hv), if_pos hv]
    · have hlt := hk.resolve_left hv
      rw [if_pos hv, if_neg hv, walkEnd, if_neg (by omega)]
  · rw [Scan.close] at ha
    by_cases hv : v = 0
    · rw [if_pos hv] at ha
      cases ha
    · rw [if_neg hv] at ha
      obtain ⟨rfl, rfl⟩ := Prod.mk.inj (Option.some.inj ha)
      exact hk.resolve_left hv
  · rw [Scan.current, Scan.close]
    by_cases hv : v = 0
    · rw [if_pos hv, hv]
      rfl
    · rw [if_neg hv]
      rfl

/-- A page: the region ends where the flags change. -/
theorem tracks_page {data : WalkData} {s : Scan Word} {f : Nat → Word} {k : Nat} (h : Tracks data s) (hk : k < 2 ^ 20) :
    ∃ data', (if f k ≠ data.prot then walkMemoryRegionsEnd quiet data (walkAddr k) (f k) else (0, data)) = (0, data') ∧
      Tracks data' (s.step 0 f k) := by
  have hend : walkEnd k = walkAddr k := if_neg (by omega)
  rw [Scan.step, ← h.prot, ← hend]
  by_cases hf : f k = data.prot
  · rw [if_neg (not_not.mpr hf), if_pos hf]
    exact ⟨data, rfl, h⟩
  · rw [if_pos hf, if_neg hf]
    exact tracks_end h (.inr hk)

/-- A table of pages from page `k` on. -/
theorem tracks_pages {f : Nat → Word} {i : Nat} (hi : i < 1024) (body : Nat → WalkData → Int × WalkData)
    (hbody : ∀ j data, j < 1024 → body j data = if f (1024 * i + j) ≠ data.prot
      then walkMemoryRegionsEnd quiet data (walkAddr (1024 * i + j)) (f (1024 * i + j)) else (0, data)) :
    ∀ (n j : Nat) (data : WalkData), j + n ≤ 1024 → Tracks data (scan 0 f (1024 * i + j)) →
      ∃ data', walkFor body n j data = (0, data') ∧ Tracks data' (scan 0 f (1024 * i + j + n))
  | 0, j, data, _, h => ⟨data, rfl, h⟩
  | n + 1, j, data, hj, h => by
    obtain ⟨data₁, h₁, ht₁⟩ := tracks_page (f := f) h (k := 1024 * i + j) (by omega)
    obtain ⟨data', h', ht'⟩ := tracks_pages hi body hbody n (j + 1) data₁ (by omega) ht₁
    refine ⟨data', ?_, by rw [show 1024 * i + j + (n + 1) = 1024 * i + (j + 1) + n by omega]; exact ht'⟩
    rw [walkFor, hbody j data (by omega), h₁]
    simpa using h'

/-- Where the flags are 0 the scan closes the run it is in and stays outside. -/
theorem scan_zero {f : Nat → Word} {k : Nat} : ∀ n : Nat, (∀ j, k ≤ j → j < k + (n + 1) → f j = 0) →
    scan 0 f (k + (n + 1)) = (scan 0 f k).close 0 k 0
  | 0, hf => by
    rw [← Nat.add_assoc, Nat.add_zero, scan, Scan.step, hf k (by omega) (by omega)]
    split
    · rename_i hcur
      have hnone : (scan 0 f k).opened = none := by
        cases hs : (scan 0 f k).opened with
        | none => rfl
        | some p =>
          rw [Scan.current, hs] at hcur
          exact absurd hcur.symm ((found_scan 0 f k).opened p.1 p.2 hs).1.ne
      obtain ⟨s, hs⟩ : ∃ s, s = scan 0 f k := ⟨_, rfl⟩
      rw [← hs] at hnone ⊢
      cases s
      simp only at hnone
      simp [Scan.close, hnone]
    · rfl
  | n + 1, hf => by
    have hprev := scan_zero (f := f) (k := k) n fun j h₁ h₂ => hf j h₁ (by omega)
    rw [← Nat.add_assoc, scan, Scan.step, hf _ (by omega) (by omega), hprev]
    exact if_pos rfl

/-- The flags of the pages of a table. -/
theorem flags_table {m : L1Map} {i j : Nat} (hi : i < 1024) (hj : j < 1024) : m.flags (1024 * i + j) =
    match (show Option (Nat → PageDesc) from m i) with
    | none => 0
    | some pd => (pd j).flags := by
  have hindex : l1Index (1024 * i + j) = i := by
    rw [l1Index_eq (by omega)]
    omega
  have hpath : l2Path (1024 * i + j) 0 = j := by
    rw [l2Path_zero]
    omega
  rw [L1Map.flags, L1Map.page, hindex]
  show (((RadixTree.Tree.lookup 0 (m i) (l2Path (1024 * i + j))).getD default : PageDesc)).flags = _
  cases h : (show Option (Nat → PageDesc) from m i) with
  | none =>
    have h' : m i = none := h
    rw [h']
    rfl
  | some pd =>
    have h' : m i = some pd := h
    rw [h']
    show (pd (l2Path (1024 * i + j) 0)).flags = (pd j).flags
    rw [hpath]

theorem walkAddr_table {i j : Nat} (hj : j < 1024) : walkAddr (1024 * i + j) =
    BitVec.ofNat 32 i <<< V_L1_SHIFT ||| BitVec.ofNat 32 j <<< TARGET_PAGE_BITS := by
  rw [walkAddr, show (1024 * i + j) / 1024 = i by omega, show (1024 * i + j) % 1024 = j by omega]

/-- One entry of `l1_map`. -/
theorem tracks_table {m : L1Map} {i : Nat} (hi : i < 1024) {data : WalkData}
    (h : Tracks data (scan 0 m.flags (1024 * i))) : ∃ data',
      walkMemoryRegions₁ quiet l2Levels (m i) (BitVec.ofNat 32 i <<< V_L1_SHIFT) data = (0, data') ∧
        Tracks data' (scan 0 m.flags (1024 * (i + 1))) := by
  have hflags : ∀ {j}, j < 1024 → _ := fun {j} hj => flags_table (m := m) hi (j := j) hj
  show ∃ data', walkMemoryRegions₁ quiet 0 (m i) _ data = (0, data') ∧ _
  cases hm : (show Option (Nat → PageDesc) from m i) with
  | none =>
    have hbase : BitVec.ofNat 32 i <<< V_L1_SHIFT = walkEnd (1024 * i) := by
      rw [walkEnd, if_neg (by omega), ← Nat.add_zero (1024 * i), walkAddr_table (by decide)]
      simp
    have hzero : ∀ k, 1024 * i ≤ k → k < 1024 * i + (1023 + 1) → m.flags k = 0 := fun k h₁ h₂ => by
      have := hflags (j := k - 1024 * i) (by omega)
      rw [hm, Nat.add_sub_cancel' h₁] at this
      exact this
    have hm' : m i = none := hm
    obtain ⟨data', hend, ht⟩ := tracks_end h (k := 1024 * i) (v := 0) (.inl rfl)
    refine ⟨data', ?_, ?_⟩
    · rw [hm', hbase]
      exact hend
    · rw [show 1024 * (i + 1) = 1024 * i + (1023 + 1) by omega, scan_zero 1023 hzero]
      exact ht
  | some pd =>
    have hm' : m i = some pd := hm
    obtain ⟨data', hwalk, ht⟩ := tracks_pages (f := m.flags) hi (fun j data =>
      if (pd j).flags ≠ data.prot then walkMemoryRegionsEnd quiet data
        (BitVec.ofNat 32 i <<< V_L1_SHIFT ||| BitVec.ofNat 32 j <<< TARGET_PAGE_BITS) (pd j).flags else (0, data))
      (fun j data hj => by
        have := hflags hj
        rw [hm] at this
        rw [this, walkAddr_table hj]) 1024 0 data (by decide) h
    rw [hm']
    exact ⟨data', hwalk, by rw [show 1024 * (i + 1) = 1024 * i + 0 + 1024 by omega]; exact ht⟩

theorem tracks_tables {m : L1Map} : ∀ (n i : Nat) (data : WalkData), i + n ≤ 1024 →
    Tracks data (scan 0 m.flags (1024 * i)) → ∃ data',
      walkFor (fun i data => walkMemoryRegions₁ quiet l2Levels (m i) (BitVec.ofNat 32 i <<< V_L1_SHIFT) data) n i data =
        (0, data') ∧ Tracks data' (scan 0 m.flags (1024 * (i + n)))
  | 0, i, data, _, h => ⟨data, rfl, h⟩
  | n + 1, i, data, hi, h => by
    obtain ⟨data₁, h₁, ht₁⟩ := tracks_table (m := m) (i := i) (by omega) h
    obtain ⟨data', h', ht'⟩ := tracks_tables n (i + 1) data₁ (by omega) ht₁
    refine ⟨data', ?_, by rw [show i + (n + 1) = i + 1 + n by omega]; exact ht'⟩
    rw [walkFor, h₁]
    simpa using h'

/-- A quiet walk calls back for the maximal runs of pages with equal flags. -/
theorem walk_quiet (m : L1Map) : (walkMemoryRegions quiet m).1 = 0 ∧
    (walkMemoryRegions quiet m).2.calls = (runs 0 m.flags (2 ^ 20)).map walkRegion := by
  have h₀ : Tracks {} (scan 0 m.flags (1024 * 0)) := ⟨rfl, fun a v h => (nomatch h), rfl, rfl⟩
  obtain ⟨data, hwalk, ht⟩ := tracks_tables (m := m) 1024 0 {} (by decide) h₀
  obtain ⟨data', hend, ht'⟩ := tracks_end ht (k := 2 ^ 20) (v := 0) (.inl rfl)
  have hall : walkMemoryRegions quiet m = (0, data') := by
    have hsize : V_L1_SIZE = 1024 := rfl
    simp only [walkMemoryRegions, hsize, hwalk]
    exact hend
  rw [hall]
  exact ⟨rfl, ht'.calls⟩

/-! ## The regions -/

/-- A maximal run of pages, by its addresses; the end of the address space is 0. -/
def region (r : Run Word) : Region := ⟨pageAddr r.first, pageAddr r.past, r.value⟩

/-- The maximal runs of pages with equal flags other than 0, in ascending order. -/
structure ReportsRuns (m : L1Map) (regions : List Region) : Prop where
  mem : ∀ r, r ∈ regions ↔ ∃ run, IsRun 0 m.flags (2 ^ 20) run ∧ r = region run
  ascending : regions.Pairwise fun r r' => r.start < r'.start ∧ r.end_ ≤ r'.start

/-- The walk calls back for these regions, up to the first result that is not 0, and returns that. -/
def WalkExact (m : L1Map) : Prop := ∃ regions, ReportsRuns m regions ∧
  ∀ fn, ((walkMemoryRegions fn m).1, (walkMemoryRegions fn m).2.calls) = stopAt fn [] regions

/-- The last pages, from the last of the first table on, have the same flags. -/
def LastEqual (m : L1Map) : Prop := ∀ k, 1023 ≤ k → k < 2 ^ 20 → m.flags k = m.flags 1023

theorem pageAddr_toNat {k : Nat} (h : k < 2 ^ 20) : (pageAddr k).toNat = 4096 * k := by
  rw [pageAddr, BitVec.toNat_ofNat]
  omega

/-- In the first table the two shifts agree. -/
theorem walkAddr_first {k : Nat} (h : k < 1024) : walkAddr k = pageAddr k := by
  have haddr := walkAddr_table (i := 0) h
  rw [Nat.mul_zero, Nat.zero_add] at haddr
  rw [haddr]
  apply BitVec.eq_of_toNat_eq
  have hbits : TARGET_PAGE_BITS = 12 := rfl
  simp only [pageAddr, hbits, BitVec.toNat_or, BitVec.toNat_shiftLeft, BitVec.toNat_ofNat, Nat.shiftLeft_eq]
  simp
  omega

theorem walkRegion_eq {m : L1Map} (h : LastEqual m) {r : Run Word} (hr : IsRun 0 m.flags (2 ^ 20) r) :
    walkRegion r = region r := by
  have hlt := hr.lt
  have hle := hr.le
  have hfirst : r.first < 1024 := by
    by_contra hge
    rcases hr.left with h₀ | h₀
    · omega
    · refine h₀ ?_
      rw [h _ (by omega) (by omega), ← h r.first (by omega) (by omega)]
      exact hr.value _ (Nat.le_refl _) hlt
  have hpast : r.past < 1024 ∨ r.past = 2 ^ 20 := by
    by_contra hno
    have hne := hr.right.resolve_left (by omega)
    refine hne ?_
    rw [h _ (by omega) (by omega), ← h (r.past - 1) (by omega) (by omega)]
    exact hr.value _ (by omega) (by omega)
  rw [walkRegion, region, walkAddr_first hfirst, walkEnd]
  rcases hpast with hp | hp
  · rw [if_neg (by omega), walkAddr_first hp]
  · rw [if_pos hp, hp]
    rfl

theorem reportsRuns_of_lastEqual {m : L1Map} (h : LastEqual m) :
    ReportsRuns m ((runs 0 m.flags (2 ^ 20)).map walkRegion) := by
  have hmap : (runs 0 m.flags (2 ^ 20)).map walkRegion = (runs 0 m.flags (2 ^ 20)).map region :=
    List.map_congr_left fun r hr => walkRegion_eq h (mem_runs.mp hr)
  rw [hmap]
  refine ⟨fun r => ?_, ?_⟩
  · rw [List.mem_map]
    exact ⟨fun ⟨run, hrun, he⟩ => ⟨run, mem_runs.mp hrun, he.symm⟩, fun ⟨run, hrun, he⟩ => ⟨run, mem_runs.mpr hrun, he.symm⟩⟩
  · rw [List.pairwise_map]
    refine (pairwise_runs 0 m.flags (2 ^ 20)).imp_of_mem fun {r r'} hr hr' hle => ?_
    have hr := mem_runs.mp hr
    have hr' := mem_runs.mp hr'
    have h₁ := hr.lt
    have h₂ := hr'.lt
    have h₃ := hr'.le
    show pageAddr r.first < pageAddr r'.first ∧ pageAddr r.past ≤ pageAddr r'.first
    rw [BitVec.lt_def, BitVec.le_def, pageAddr_toNat (by omega), pageAddr_toNat (by omega), pageAddr_toNat (by omega)]
    omega

/-- Where the walk begins or ends a region is below `2 ^ 22`. -/
theorem walkRegion_lt {m : L1Map} {r : Run Word} (hr : IsRun 0 m.flags (2 ^ 20) r) :
    (walkRegion r).start.toNat < 2 ^ 22 ∧ (walkRegion r).end_.toNat < 2 ^ 22 := by
  have hlt := hr.lt
  have hle := hr.le
  refine ⟨walkAddr_lt (by omega), ?_⟩
  show (walkEnd r.past).toNat < 2 ^ 22
  rw [walkEnd]
  split
  · decide
  · exact walkAddr_lt (by omega)

/-- A region that begins or ends behind the first table is not reported as it is. -/
theorem lastEqual_of_reportsRuns {m : L1Map} (h : ReportsRuns m ((runs 0 m.flags (2 ^ 20)).map walkRegion)) :
    LastEqual m := by
  by_contra hno
  simp only [LastEqual, not_forall] at hno
  obtain ⟨k, hk₁, hk₂, hk₃⟩ := hno
  -- the first page from 1023 on with other flags begins a region, or the page before it ends one
  have hex : ∃ b, 1023 ≤ b ∧ b < 2 ^ 20 ∧ m.flags b ≠ m.flags 1023 := ⟨k, hk₁, hk₂, hk₃⟩
  obtain ⟨h₁, h₂, h₃⟩ := Nat.find_spec hex
  have hmin : ∀ j < Nat.find hex, 1023 ≤ j → m.flags j = m.flags 1023 := fun j hj hj' => by
    by_contra hne
    exact Nat.find_min hex hj ⟨hj', by omega, hne⟩
  generalize Nat.find hex = b at h₁ h₂ h₃ hmin
  have hb : 1024 ≤ b := by
    by_contra hlt
    exact h₃ (by rw [show b = 1023 by omega])
  have hchange : m.flags (b - 1) ≠ m.flags b := by
    rw [hmin (b - 1) (by omega) (by omega)]
    exact h₃.symm
  have haddr : 2 ^ 22 ≤ (pageAddr b).toNat := by
    rw [pageAddr_toNat h₂]
    omega
  have hreported : ∀ r, IsRun 0 m.flags (2 ^ 20) r → (region r).start.toNat < 2 ^ 22 ∧ (region r).end_.toNat < 2 ^ 22 := by
    intro r hr
    obtain ⟨r', hr', he⟩ := List.mem_map.mp ((h.mem _).mpr ⟨r, hr, rfl⟩)
    rw [← he]
    exact walkRegion_lt (mem_runs.mp hr')
  by_cases hz : m.flags (b - 1) = 0
  · obtain ⟨r, hr, hle, hlt⟩ := exists_run (z := 0) h₂ fun h₀ => hchange (hz.trans h₀.symm)
    have hfirst : r.first = b := by
      by_contra hne
      exact hchange ((hr.value (b - 1) (by omega) (by omega)).trans (hr.value b hle hlt).symm)
    have hstart : (pageAddr r.first).toNat < 2 ^ 22 := (hreported r hr).1
    rw [hfirst] at hstart
    omega
  · obtain ⟨r, hr, hle, hlt⟩ := exists_run (z := 0) (n := 2 ^ 20) (k := b - 1) (by omega) hz
    have hpast : r.past = b := by
      by_contra hne
      exact hchange ((hr.value (b - 1) hle hlt).trans (hr.value b (by omega) (by omega)).symm)
    have hend : (pageAddr r.past).toNat < 2 ^ 22 := (hreported r hr).2
    rw [hpast] at hend
    omega

theorem lastEqual_of_walkExact {m : L1Map} (h : WalkExact m) : LastEqual m := by
  obtain ⟨regions, hr, hfn⟩ := h
  have hquiet := hfn quiet
  rw [stopAt_quiet, List.nil_append, (walk_quiet m).2] at hquiet
  exact lastEqual_of_reportsRuns ((Prod.mk.inj hquiet).2 ▸ hr)

/-- A page in the second table is reported at an address in the first one. -/
theorem not_walkExact : ¬ ∀ calls m, setFlagsRun calls = .ok m → WalkExact m := by
  intro h
  obtain ⟨m, hrun, -, hflags⟩ := setFlagsRun_spec [⟨0x400000, 0x401000, 9⟩] (by decide)
  have hlast := lastEqual_of_walkExact (h _ m hrun) 1024 (by decide) (by decide)
  have h₁ := hflags (pageAddr 1024)
  have h₂ := hflags (pageAddr 1023)
  rw [pageGetFlags_eq, pageIndex_pageAddr (by decide)] at h₁ h₂
  rw [h₁, h₂] at hlast
  exact absurd hlast (by decide)

/-- The walk reports the maximal runs of pages with equal flags, up to the first
result that is not 0, if and only if the pages from 1023 on have the same flags. -/
theorem walkExact_iff (m : L1Map) : WalkExact m ↔ LastEqual m := by
  refine ⟨lastEqual_of_walkExact, fun h => ⟨_, reportsRuns_of_lastEqual h, fun fn => ?_⟩⟩
  obtain ⟨new, hnew, hstop⟩ := (stops_walk fn m).calls
  rw [(walk_quiet m).2] at hnew
  rw [hstop, hnew]
  rfl

end Unitrans
