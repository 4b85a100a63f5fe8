/-
The strings and their tables on the new program's stack: the pages bring the strings
where they were put, a scan for terminators finds them again, and the writes of the
tables stay below them (`arguments_reach_guest`).
-/
import Unitrans.ArgPages
import Unitrans.ElfTables
import Unitrans.X86.Exec

namespace Unitrans

open X86 Mem Splice ArgPages

/-! ## The pages on the stack -/

theorem length_pageBytes (pg : Elems pageSize Byte) : (pageBytes pg).length = 4096 := by
  rw [pageBytes, List.length_map, List.length_range]
  rfl

theorem putArgPages_spec (page : ArgPages) (base : Word) : ∀ (n i : Nat) (m : Mem) (info : ImageInfo), i + n = MAX_ARG_PAGES →
    (∀ q < 4096 * i, (putArgPages page n i (base + BitVec.ofNat 32 (4096 * i)) m info).1 (base + BitVec.ofNat 32 q) =
      m (base + BitVec.ofNat 32 q)) ∧
    ∀ q, 4096 * i ≤ q → q < 4096 * MAX_ARG_PAGES → page.Has q →
      (putArgPages page n i (base + BitVec.ofNat 32 (4096 * i)) m info).1 (base + BitVec.ofNat 32 q) = page.flat q
  | 0, i, m, info, h => ⟨fun _ _ => rfl, fun q hq hq' => by
      rw [Nat.add_zero] at h
      omega⟩
  | n + 1, i, m, info, h => by
    have hmax : MAX_ARG_PAGES = 33 := rfl
    have hnext : base + BitVec.ofNat 32 (4096 * i) + TARGET_PAGE_SIZE = base + BitVec.ofNat 32 (4096 * (i + 1)) := by
      rw [Nat.mul_succ, BitVec.ofNat_add, ← BitVec.add_assoc]
      rfl
    have hput : ∀ pg, page i = some pg → ∀ q, 4096 * i ≤ q → q < 4096 * (i + 1) →
        m.put (base + BitVec.ofNat 32 (4096 * i)) (pageBytes pg) (base + BitVec.ofNat 32 q) = page.flat q := by
      intro pg hpg q hq hq'
      have hlen := length_pageBytes pg
      obtain ⟨j, rfl⟩ := Nat.exists_eq_add_of_le hq
      have hdiv : (4096 * i + j) / pageSize = i ∧ (4096 * i + j) % pageSize = j := by
        rw [pageSize_eq]
        omega
      rw [BitVec.ofNat_add, ← BitVec.add_assoc, put_add (by omega) (by omega), flat_of_some (hdiv.1.symm ▸ hpg), hdiv.2]
      simp only [pageBytes, List.getElem_map, List.getElem_range]
    have hout : ∀ pg, ∀ q < 4096 * i,
        m.put (base + BitVec.ofNat 32 (4096 * i)) (pageBytes pg) (base + BitVec.ofNat 32 q) = m (base + BitVec.ofNat 32 q) := by
      intro pg q hq
      refine put_of_notMem ?_
      rw [length_pageBytes, mem_span]
      bv_omega
    rw [putArgPages]
    cases hpg : page i with
    | none =>
      dsimp only
      rw [hnext]
      obtain ⟨hbelow, habove⟩ := putArgPages_spec page base n (i + 1) m info (by omega)
      refine ⟨fun q hq => hbelow q (by omega), fun q hq hq' hhas => habove q ?_ hq' hhas⟩
      by_contra hlt
      have hdiv : q / pageSize = i := by
        rw [pageSize_eq]
        omega
      exact hhas (hdiv.symm ▸ hpg)
    | some pg =>
      dsimp only
      rw [hnext]
      obtain ⟨hbelow, habove⟩ := putArgPages_spec page base n (i + 1) (m.put (base + BitVec.ofNat 32 (4096 * i)) (pageBytes pg))
        { info with rss := info.rss + 1 } (by omega)
      refine ⟨fun q hq => ?_, fun q hq hq' hhas => ?_⟩
      · rw [hbelow q (by omega), hout pg q hq]
      · rcases Nat.lt_or_ge q (4096 * (i + 1)) with hlt | hge
        · rw [hbelow q hlt, hput pg hpg q hq hlt]
        · exact habove q hge hq' hhas

/-- What was put in the pages is on the stack. -/
theorem at_putArgPages {page : ArgPages} {p : Nat} {bs : List Byte} (h : Put (fun _ => none) p bs page)
    (hp : p + bs.length ≤ 4096 * MAX_ARG_PAGES) (base : Word) (m : Mem) (info : ImageInfo) :
    At (putArgPages page MAX_ARG_PAGES 0 base m info).1 (base + BitVec.ofNat 32 p) bs := by
  have hmax : 0 + MAX_ARG_PAGES = MAX_ARG_PAGES := Nat.zero_add _
  have hbase : base + BitVec.ofNat 32 (4096 * 0) = base := BitVec.add_zero base
  have hspec := (putArgPages_spec page base MAX_ARG_PAGES 0 m info hmax).2
  rw [hbase] at hspec
  generalize putArgPages page MAX_ARG_PAGES 0 base m info = r at hspec ⊢
  have hflat : ∀ q, q < 4096 * MAX_ARG_PAGES → page.Has q → r.1 (base + BitVec.ofNat 32 q) = page.flat q :=
    fun q hq hhas => hspec q (Nat.zero_le _) hq hhas
  intro i hi
  rw [BitVec.add_assoc, ← BitVec.ofNat_add, hflat (p + i) (by omega) (h.has _ (by omega) (by omega)),
    h.flat, splice_inside _ _ hi]

/-- Where the first page goes. -/
def argBase (guestStackSize error : Word) : Word :=
  error + stackSize guestStackSize - BitVec.ofNat 32 MAX_ARG_PAGES * TARGET_PAGE_SIZE

theorem setupArgPages_eq {guestStackSize error : Word} (h : error ≠ -1) (p : Nat) (page : ArgPages) (m : Mem)
    (info : ImageInfo) : setupArgPages guestStackSize error p page m info =
      .ok (BitVec.ofNat 32 p + argBase guestStackSize error,
        putArgPages page MAX_ARG_PAGES 0 (argBase guestStackSize error) m { info with stackLimit := error }) :=
  if_neg h

/-! ## Finding the strings again -/

theorem qemuStrnlen_eq {m : Mem} : ∀ (n : Nat) {a : Word} {cs : List Byte}, At m a (cs ++ [0]) → (0 : Byte) ∉ cs →
    qemuStrnlen m a n = min n cs.length
  | 0, _, _, _, _ => by rw [qemuStrnlen, Nat.zero_min]
  | n + 1, a, [], h, _ => by
    rw [List.nil_append, At.cons] at h
    rw [qemuStrnlen, if_pos h.1, List.length_nil, Nat.min_zero]
  | n + 1, a, c :: cs, h, hnul => by
    rw [List.cons_append, At.cons] at h
    rw [List.mem_cons, not_or] at hnul
    rw [qemuStrnlen, h.1, if_neg (fun hc => hnul.1 hc.symm), qemuStrnlen_eq n h.2 hnul.2, List.length_cons]
    omega

theorem targetStrlenFrom_eq {m : Mem} {a₁ : Word} : ∀ (n : Nat) {a : Word} {cs : List Byte}, cs.length = n →
    At m a (cs ++ [0]) → (0 : Byte) ∉ cs → 0 < a.toNat → a.toNat + cs.length < 2 ^ 32 → a₁.toNat ≤ a.toNat →
    a.toNat - a₁.toNat + cs.length ≤ 0x7fffffff →
    targetStrlenFrom m a₁ a = BitVec.ofNat 32 (a.toNat - a₁.toNat + cs.length) := by
  intro n
  induction n using Nat.strongRecOn with
  | ind n ih =>
    intro a cs hn hat hnul hpos hlt hle hmax
    have hrest := pageRest_eq a
    rw [pageSize_eq] at hrest
    rw [targetStrlenFrom, qemuStrnlen_eq _ hat hnul]
    have hnext : ∀ l, l ≤ cs.length → (a + BitVec.ofNat 32 l).toNat = a.toNat + l := fun l hl => by bv_omega
    have hdiff : ∀ l, l ≤ cs.length → (a + BitVec.ofNat 32 l - a₁).toNat = a.toNat - a₁.toNat + l := fun l hl => by
      bv_omega
    have hok : ∀ l, l ≤ cs.length → ¬ (a + BitVec.ofNat 32 l = 0 ∨ 0x7fffffff < a + BitVec.ofNat 32 l - a₁) := by
      intro l hl
      have h₁ := hnext l hl
      have h₂ := hdiff l hl
      generalize a + BitVec.ofNat 32 l = next at h₁ h₂ ⊢
      generalize next - a₁ = diff at h₂ ⊢
      bv_omega
    rw [if_neg (hok _ (Nat.min_le_right _ _))]
    rcases Nat.lt_or_ge cs.length (pageRest a) with hshort | hlong
    · rw [Nat.min_eq_right (Nat.le_of_lt hshort), if_pos (by omega)]
      apply BitVec.eq_of_toNat_eq
      rw [hdiff _ (Nat.le_refl _), BitVec.toNat_ofNat, Nat.mod_eq_of_lt (by omega)]
    · rw [Nat.min_eq_left hlong, if_neg (by omega)]
      have h₁ := hnext _ hlong
      have hdrop : (cs.drop (pageRest a)).length = cs.length - pageRest a := List.length_drop
      have hat' : At m (a + BitVec.ofNat 32 (pageRest a)) (cs.drop (pageRest a) ++ [0]) := by
        rw [← List.take_append_drop (pageRest a) cs, List.append_assoc] at hat
        have hright := hat.right
        rwa [List.length_take, Nat.min_eq_left hlong] at hright
      have hpos' : 0 < pageRest a := by omega
      rw [ih (n - pageRest a) (by omega) (by omega) hat' (fun h => hnul (List.mem_of_mem_drop h)) (by omega) (by omega)
        (by omega) (by omega)]
      congr 1
      omega

theorem targetStrlen_eq {m : Mem} {a : Word} {s : CString} (h : At m a s.bytes) (hpos : 0 < a.toNat)
    (hlt : a.toNat + s.len ≤ 2 ^ 32) (hmax : s.len ≤ 0x80000000) : targetStrlen m a + 1 = BitVec.ofNat 32 s.len := by
  have hlen : s.len = s.chars.length + 1 := by
    rw [CString.len, CString.bytes, List.length_append, List.length_singleton]
  rw [targetStrlen, targetStrlenFrom_eq s.chars.length rfl h s.noNul hpos (by omega) (Nat.le_refl _) (by omega), hlen,
    Nat.sub_self, Nat.zero_add, BitVec.ofNat_add]
  rfl

/-! ## The tables -/

theorem concat_cons (s : CString) (ss : List CString) : concat (s :: ss) = s.bytes ++ concat ss := List.flatMap_cons

/-- The addresses of strings that lie one after the other are put in the table. -/
theorem putPointers_spec : ∀ (ss : List CString) (table stringp : Word) (m : Mem), At m stringp (concat ss) →
    Disjoint (Span table (4 * ss.length)) (Span stringp (concat ss).length) → 0 < stringp.toNat →
    stringp.toNat + (concat ss).length < 2 ^ 32 → (concat ss).length ≤ 0x80000000 → 4 * ss.length ≤ 2 ^ 32 →
    ∃ m', putPointers ss.length table stringp m =
        (table + BitVec.ofNat 32 (4 * ss.length), stringp + BitVec.ofNat 32 (concat ss).length, m') ∧
      (∀ x ∉ Span table (4 * ss.length), m' x = m x) ∧
      ∀ i < ss.length, m'.ld32 (table + BitVec.ofNat 32 (4 * i)) =
        stringp + BitVec.ofNat 32 (concat (ss.take i)).length
  | [], table, stringp, m, _, _, _, _, _, _ => by
    refine ⟨m, ?_, fun x _ => rfl, fun i hi => absurd hi (Nat.not_lt_zero i)⟩
    simp [putPointers, concat]
  | s :: ss, table, stringp, m, hat, hd, hpos, hlt, hmax, htable => by
    have hlen : (concat (s :: ss)).length = s.len + (concat ss).length := by
      rw [concat_cons, List.length_append]
      rfl
    rw [List.length_cons, Nat.mul_succ] at hd htable
    rw [hlen] at hd hlt hmax
    have hfirst : Span table 4 ⊆ Span table (4 * ss.length + 4) := span_mono (by omega)
    have hat₁ : At (m.st32 table stringp) stringp (s.bytes ++ concat ss) := by
      refine (concat_cons s ss ▸ hat).st32 (by rw [← concat_cons, hlen]; omega) ?_
      rw [← concat_cons, hlen]
      exact hd.mono_left hfirst
    have hnext : stringp + (targetStrlen (m.st32 table stringp) stringp + 1) = stringp + BitVec.ofNat 32 s.len := by
      rw [targetStrlen_eq hat₁.left hpos (by omega) (by omega)]
    have hstart : (stringp + BitVec.ofNat 32 s.len).toNat = stringp.toNat + s.len := by bv_omega
    have hsub : Span (table + 4) (4 * ss.length) ⊆ Span table (4 * ss.length + 4) := by
      have := span_subset_add (a := table) (i := 4) (k := 4 * ss.length) (n := 4 * ss.length + 4) (by omega) htable
      exact this
    obtain ⟨m', hput, hframe, hptr⟩ := putPointers_spec ss (table + 4) (stringp + BitVec.ofNat 32 s.len)
      (m.st32 table stringp) hat₁.right
      (hd.mono hsub (span_subset_add (by omega) (by omega))) (by omega) (by omega) (by omega) (by omega)
    refine ⟨m', ?_, fun x hx => ?_, fun i hi => ?_⟩
    · rw [List.length_cons, putPointers, hnext, hput, hlen, Nat.mul_succ, Nat.add_comm (4 * ss.length), BitVec.ofNat_add, BitVec.ofNat_add,
        ← BitVec.add_assoc, ← BitVec.add_assoc]
      rfl
    · rw [List.length_cons, Nat.mul_succ] at hx
      rw [hframe x fun h => hx (hsub h), st32_of_notMem fun h => hx (hfirst h)]
    · cases i with
      | zero =>
        have hapart : Disjoint (Span (table + 4) (4 * ss.length)) (Span table 4) := by
          have := disjoint_span_add (a := table) (i := 0) (j := 4) (k := 4) (l := 4 * ss.length) (by omega) (by omega)
          rw [BitVec.add_zero] at this
          exact this.symm
        rw [Nat.mul_zero, BitVec.add_zero, ld32_congr (m := m.st32 table stringp) fun x hx =>
          hframe x fun h => Set.disjoint_left.mp hapart h hx, ld32_st32]
        simp [concat]
      | succ i =>
        have hi : i < ss.length := by simpa using hi
        have := hptr i hi
        rw [List.take_succ_cons, concat_cons, List.length_append, Nat.mul_succ, Nat.add_comm (4 * i), BitVec.ofNat_add,
          ← BitVec.add_assoc, BitVec.ofNat_add, ← BitVec.add_assoc]
        exact this

/-- `m'` is `m` but for the `w` bytes from `a` on. -/
def Frame (a : Word) (w : Nat) (m m' : Mem) : Prop := ∀ x ∉ Span a w, m' x = m x

section Frames

variable {b : Word} {m m' m'' : Mem} {i w size : Nat}

theorem Frame.trans (h : Frame b size m m') (h' : Frame b size m' m'') : Frame b size m m'' :=
  fun x hx => (h' x hx).trans (h x hx)

theorem Frame.within (h : Frame (b + BitVec.ofNat 32 i) w m m') (hw : i + w ≤ size) (hs : size ≤ 2 ^ 32) :
    Frame b size m m' := fun x hx => h x fun hin => hx (span_subset_add hw hs hin)

theorem frame_st32 (a v : Word) (m : Mem) : Frame a 4 m (m.st32 a v) := fun _ hx => st32_of_notMem hx

theorem Frame.ld32 (h : Frame (b + BitVec.ofNat 32 i) w m m') {l : Nat}
    (hl : l + 4 ≤ i ∧ i + w ≤ 2 ^ 32 ∨ i + w ≤ l ∧ l + 4 ≤ 2 ^ 32) :
    m'.ld32 (b + BitVec.ofNat 32 l) = m.ld32 (b + BitVec.ofNat 32 l) := by
  refine ld32_congr fun x hx => h x fun hin => ?_
  rcases hl with ⟨hl, hle⟩ | ⟨hl, hle⟩
  · exact Set.disjoint_left.mp (disjoint_span_add hl hle) hx hin
  · exact Set.disjoint_left.mp (disjoint_span_add hl hle) hin hx

theorem Frame.at (h : Frame b size m m') {a : Word} {bs : List Byte} (hat : At m a bs) (hl : bs.length ≤ 2 ^ 32)
    (hd : Disjoint (Span b size) (Span a bs.length)) : At m' a bs :=
  hat.congr hl fun x hx => h x fun hin => Set.disjoint_left.mp hd hin hx

end Frames

/-- Where the table of the arguments is, from the stack pointer on. -/
def argvAt (pushPtr : Bool) : Nat := if pushPtr then 12 else 4

/-- The bytes of the tables and what is below them. -/
def tablesSize (pushPtr : Bool) (argc envc : Nat) : Nat := argvAt pushPtr + 4 * argc + 4 + 4 * envc + 4

/-- The words of the tables of `argv` and `envp`, whose strings lie one after the other from `stringp` on. -/
structure StringTables (m : Mem) (sp : Word) (pushPtr : Bool) (argv envp : List CString) (stringp : Word) : Prop where
  argc : m.ld32 sp = BitVec.ofNat 32 argv.length
  pushed : pushPtr → m.ld32 (sp + 4) = sp + 12 ∧ m.ld32 (sp + 8) = sp + 12 + BitVec.ofNat 32 (4 * argv.length + 4)
  argvPtr : ∀ i < argv.length, m.ld32 (sp + BitVec.ofNat 32 (argvAt pushPtr + 4 * i)) =
    stringp + BitVec.ofNat 32 (concat (argv.take i)).length
  argvEnd : m.ld32 (sp + BitVec.ofNat 32 (argvAt pushPtr + 4 * argv.length)) = 0
  envpPtr : ∀ i < envp.length, m.ld32 (sp + BitVec.ofNat 32 (argvAt pushPtr + 4 * argv.length + 4 + 4 * i)) =
    stringp + BitVec.ofNat 32 ((concat argv).length + (concat (envp.take i)).length)
  envpEnd : m.ld32 (sp + BitVec.ofNat 32 (argvAt pushPtr + 4 * argv.length + 4 + 4 * envp.length)) = 0

/-- The words below the tables. -/
theorem pushed_spec (b : Word) (pushPtr : Bool) (n : Nat) (m : Mem) :
    ∃ m', (if pushPtr then (b + BitVec.ofNat 32 (argvAt pushPtr) - 4 - 4,
        (m.st32 (b + BitVec.ofNat 32 (argvAt pushPtr) - 4) (b + BitVec.ofNat 32 (argvAt pushPtr + 4 * n + 4))).st32
          (b + BitVec.ofNat 32 (argvAt pushPtr) - 4 - 4) (b + BitVec.ofNat 32 (argvAt pushPtr)))
      else (b + BitVec.ofNat 32 (argvAt pushPtr), m)) = (b + 4, m') ∧
      Frame b (argvAt pushPtr) m m' ∧
      (pushPtr → m'.ld32 (b + 4) = b + 12 ∧ m'.ld32 (b + 8) = b + 12 + BitVec.ofNat 32 (4 * n + 4)) := by
  cases pushPtr with
  | false => exact ⟨m, rfl, fun _ _ => rfl, fun h => nomatch h⟩
  | true =>
    have h₁ : b + BitVec.ofNat 32 (argvAt true) - 4 = b + BitVec.ofNat 32 8 := by
      rw [show argvAt true = 12 from rfl]
      bv_omega
    have h₂ : b + BitVec.ofNat 32 8 - 4 = b + BitVec.ofNat 32 4 := by bv_omega
    rw [if_pos rfl, h₁, h₂]
    refine ⟨_, rfl, ?_, fun _ => ⟨ld32_st32 .., ?_⟩⟩
    · exact ((frame_st32 (b + BitVec.ofNat 32 8) _ m).within (by decide) (by decide)).trans
        ((frame_st32 (b + BitVec.ofNat 32 4) _ _).within (by decide) (by decide))
    · show Mem.ld32 _ (b + BitVec.ofNat 32 8) = _
      rw [(frame_st32 (b + BitVec.ofNat 32 4) _ _).ld32 (by omega), ld32_st32, Nat.add_assoc, BitVec.ofNat_add,
        ← BitVec.add_assoc]
      rfl

/-- The words of a table and its NULL, taken off an address. -/
theorem sub_table (b : Word) (i n : Nat) :
    b + BitVec.ofNat 32 (i + (4 * n + 4)) - (BitVec.ofNat 32 n + 1) * 4 = b + BitVec.ofNat 32 i := by
  have hmul : (BitVec.ofNat 32 n + 1) * 4 = BitVec.ofNat 32 (4 * n + 4) := by
    rw [show 4 * n + 4 = (n + 1) * 4 by omega, BitVec.ofNat_mul, BitVec.ofNat_add]
    rfl
  rw [hmul, BitVec.ofNat_add, ← BitVec.add_assoc, BitVec.add_sub_cancel]

theorem sub_of_add {b p : Word} {n k : Nat} (h : b + BitVec.ofNat 32 n = p) (hk : k ≤ n) :
    p - BitVec.ofNat 32 k = b + BitVec.ofNat 32 (n - k) := by
  obtain ⟨i, rfl⟩ := Nat.exists_eq_add_of_le' hk
  rw [← h, BitVec.ofNat_add, ← BitVec.add_assoc, BitVec.add_sub_cancel, Nat.add_sub_cancel]

theorem toInt_toNat_ofNat {n : Nat} (h : n < 2 ^ 31) : (BitVec.ofNat 32 n).toInt.toNat = n := by
  have hnat : (BitVec.ofNat 32 n).toNat = n := by
    rw [BitVec.toNat_ofNat]
    omega
  rw [BitVec.toInt_eq_toNat_of_lt (by rw [hnat]; omega), hnat]
  rfl

theorem loaderBuildArgptr_spec {argv envp : List CString} (b stringp : Word) (pushPtr : Bool) (m : Mem) (info : ImageInfo)
    (hat : At m stringp (concat argv ++ concat envp)) (hlen : argv.length + envp.length < 2 ^ 28)
    (hd : Disjoint (Span b (tablesSize pushPtr argv.length envp.length)) (Span stringp (concat argv ++ concat envp).length))
    (hpos : 0 < stringp.toNat) (hlt : stringp.toNat + (concat argv ++ concat envp).length < 2 ^ 32)
    (hmax : (concat argv ++ concat envp).length ≤ 0x80000000) :
    ∃ m' info', loaderBuildArgptr (BitVec.ofNat 32 envp.length) (BitVec.ofNat 32 argv.length)
        (b + BitVec.ofNat 32 (tablesSize pushPtr argv.length envp.length)) stringp pushPtr m info = (b, m', info') ∧
      Frame b (tablesSize pushPtr argv.length envp.length) m m' ∧ StringTables m' b pushPtr argv envp stringp := by
  have ha : argvAt pushPtr ≤ 12 := by cases pushPtr <;> decide
  have hcat : (concat argv ++ concat envp).length = (concat argv).length + (concat envp).length := List.length_append
  have hstart : (stringp + BitVec.ofNat 32 (concat argv).length).toNat = stringp.toNat + (concat argv).length := by bv_omega
  generalize hn : argv.length = n at *
  generalize hk : envp.length = k at *
  have hsize : tablesSize pushPtr n k = argvAt pushPtr + 4 * n + 4 + 4 * k + 4 := rfl
  have henvp : b + BitVec.ofNat 32 (tablesSize pushPtr n k) - (BitVec.ofNat 32 k + 1) * 4 =
      b + BitVec.ofNat 32 (argvAt pushPtr + 4 * n + 4) := by
    rw [hsize, Nat.add_assoc (_ + 4)]
    exact sub_table ..
  have hargv : b + BitVec.ofNat 32 (argvAt pushPtr + 4 * n + 4) - (BitVec.ofNat 32 n + 1) * 4 =
      b + BitVec.ofNat 32 (argvAt pushPtr) := by
    rw [Nat.add_assoc]
    exact sub_table ..
  obtain ⟨m₁, hpush, hframe₁, hpushed⟩ := pushed_spec b pushPtr n m
  have hb : b + 4 - 4 = b := BitVec.add_sub_cancel ..
  simp only [loaderBuildArgptr, henvp, hargv, hpush, hb, toInt_toNat_ofNat (show n < 2 ^ 31 by omega),
    toInt_toNat_ofNat (show k < 2 ^ 31 by omega)]
  -- the writes, each in its part of the tables
  have hw₁ : Frame b (tablesSize pushPtr n k) m m₁ := fun x hx => hframe₁ x fun h => hx (span_mono (by omega) h)
  have hf₂ := frame_st32 (b + BitVec.ofNat 32 0) (BitVec.ofNat 32 n) m₁
  have hw₂ := hw₁.trans (hf₂.within (show 0 + 4 ≤ tablesSize pushPtr n k by omega) (by omega))
  have hlow₂ : ∀ l, 4 ≤ l → l + 4 ≤ 2 ^ 32 →
      (m₁.st32 b (BitVec.ofNat 32 n)).ld32 (b + BitVec.ofNat 32 l) = m₁.ld32 (b + BitVec.ofNat 32 l) := fun l hl hl' => by
    have := hf₂.ld32 (l := l) (by omega)
    rwa [BitVec.add_zero] at this
  rw [BitVec.add_zero] at hf₂ hw₂
  generalize hm₂ : m₁.st32 b (BitVec.ofNat 32 n) = m₂ at hf₂ hw₂ hlow₂ ⊢
  have hat₂ := hw₂.at hat (by omega) hd
  have hsub : ∀ i w, i + w ≤ tablesSize pushPtr n k →
      Disjoint (Span (b + BitVec.ofNat 32 i) w) (Span stringp (concat argv ++ concat envp).length) :=
    fun i w hi => hd.mono_left (span_subset_add hi (by omega))
  obtain ⟨m₃, hput₃, hf₃, hptr₃⟩ := putPointers_spec argv (b + BitVec.ofNat 32 (argvAt pushPtr)) stringp m₂ hat₂.left
    ((hsub (argvAt pushPtr) (4 * argv.length) (by omega)).mono_right (span_mono (by omega))) hpos (by omega) (by omega)
    (by omega)
  rw [hn] at hput₃ hf₃ hptr₃
  rw [BitVec.add_assoc, ← BitVec.ofNat_add] at hput₃
  simp only [hput₃]
  have hf₄ := frame_st32 (b + BitVec.ofNat 32 (argvAt pushPtr + 4 * n)) 0 m₃
  generalize hm₄ : m₃.st32 (b + BitVec.ofNat 32 (argvAt pushPtr + 4 * n)) 0 = m₄ at hf₄ ⊢
  have hw₄ := hw₂.trans ((Frame.within hf₃ (show argvAt pushPtr + 4 * n ≤ tablesSize pushPtr n k by omega) (by omega)).trans
    (hf₄.within (by omega) (by omega)))
  have hat₄ := hw₄.at hat (by omega) hd
  obtain ⟨m₅, hput₅, hf₅, hptr₅⟩ := putPointers_spec envp (b + BitVec.ofNat 32 (argvAt pushPtr + 4 * n + 4))
    (stringp + BitVec.ofNat 32 (concat argv).length) m₄ hat₄.right
    ((hsub (argvAt pushPtr + 4 * n + 4) (4 * envp.length) (by omega)).mono_right (span_subset_add (by omega) (by omega)))
    (by omega) (by omega) (by omega) (by omega)
  rw [hk] at hput₅ hf₅ hptr₅
  rw [BitVec.add_assoc, ← BitVec.ofNat_add] at hput₅
  simp only [hput₅]
  have hf₆ := frame_st32 (b + BitVec.ofNat 32 (argvAt pushPtr + 4 * n + 4 + 4 * k)) 0 m₅
  generalize hm₆ : m₅.st32 (b + BitVec.ofNat 32 (argvAt pushPtr + 4 * n + 4 + 4 * k)) 0 = m₆ at hf₆ ⊢
  have hw₆ := hw₄.trans ((Frame.within hf₅ (show argvAt pushPtr + 4 * n + 4 + 4 * k ≤ tablesSize pushPtr n k by omega)
    (by omega)).trans (hf₆.within (by omega) (by omega)))
  refine ⟨m₆, _, rfl, hw₆, ?_⟩
  -- a word below the tables, and one in each table
  have hlow : ∀ l, l + 4 ≤ argvAt pushPtr → m₆.ld32 (b + BitVec.ofNat 32 l) = m₂.ld32 (b + BitVec.ofNat 32 l) := by
    intro l hl
    rw [hf₆.ld32 (by omega), Frame.ld32 hf₅ (by omega), hf₄.ld32 (by omega), Frame.ld32 hf₃ (by omega)]
  refine ⟨?_, fun hp => ?_, fun i hi => ?_, ?_, fun i hi => ?_, ?_⟩
  · have := hlow 0 (by cases pushPtr <;> decide)
    rw [BitVec.add_zero, ← hm₂, ld32_st32] at this
    rw [this, hn]
  · obtain ⟨h₄, h₈⟩ := hpushed hp
    have ha : argvAt pushPtr = 12 := by rw [hp]; rfl
    have hlow₄ := (hlow 4 (by omega)).trans (hlow₂ 4 (by omega) (by omega))
    have hlow₈ := (hlow 8 (by omega)).trans (hlow₂ 8 (by omega) (by omega))
    rw [hn]
    exact ⟨hlow₄.trans h₄, hlow₈.trans h₈⟩
  · have hi : i < n := hn ▸ hi
    have := hptr₃ i hi
    rw [BitVec.add_assoc, ← BitVec.ofNat_add] at this
    rw [hf₆.ld32 (by omega), Frame.ld32 hf₅ (by omega), hf₄.ld32 (by omega), this]
  · rw [hn, hf₆.ld32 (by omega), Frame.ld32 hf₅ (by omega), ← hm₄, ld32_st32]
  · have hi : i < k := hk ▸ hi
    have := hptr₅ i hi
    rw [BitVec.add_assoc, ← BitVec.ofNat_add] at this
    rw [hn, hf₆.ld32 (by omega), this, BitVec.add_assoc, ← BitVec.ofNat_add]
  · rw [hn, hk, ← hm₆, ld32_st32]

/-! ## All tables -/

theorem foldl_newAuxEnt_frame : ∀ (l : List (Word × Word)) (s : Word × Mem), 8 * l.length ≤ 2 ^ 32 →
    Frame (s.1 - BitVec.ofNat 32 (8 * l.length)) (8 * l.length) s.2 (l.foldl newAuxEnt s).2
  | [], _, _ => fun _ _ => rfl
  | e :: l, s, hl => by
    rw [List.length_cons, Nat.mul_succ] at hl ⊢
    rw [List.foldl_cons]
    have hrest := foldl_newAuxEnt_frame l (newAuxEnt s e) (by omega)
    have hbase : (newAuxEnt s e).1 - BitVec.ofNat 32 (8 * l.length) = s.1 - BitVec.ofNat 32 (8 * l.length + 8) := by
      rw [newAuxEnt]
      bv_omega
    rw [hbase] at hrest
    generalize hb : s.1 - BitVec.ofNat 32 (8 * l.length + 8) = b at hrest ⊢
    have h₁ : s.1 - 4 = b + BitVec.ofNat 32 (8 * l.length + 4) := by bv_omega
    have h₂ : s.1 - 4 - 4 = b + BitVec.ofNat 32 (8 * l.length) := by bv_omega
    have hone : Frame b (8 * l.length + 8) s.2 (newAuxEnt s e).2 := by
      rw [newAuxEnt, h₂, h₁]
      exact ((frame_st32 _ _ _).within (by omega) hl).trans ((frame_st32 _ _ _).within (by omega) hl)
    exact hone.trans fun x hx => hrest x fun h => hx (span_mono (by omega) h)

/-- The auxiliary vector begins a little below the strings. -/
theorem tablesTop_near (v : AuxValues) (p argc envc ibcs : Word) :
    ∃ d, 8 ≤ d ∧ d ≤ 38 ∧ tablesTop v p argc envc ibcs = p - BitVec.ofNat 32 d := by
  rw [tablesTop, platform_size]
  have hsub : ((p - 8) &&& ~~~15).toNat + (p - 8).toNat % 16 = (p - 8).toNat :=
    Align.toNat_and_not_low_add (w := 32) (k := 4) (p - 8)
  generalize (p - 8) &&& ~~~15 = top at hsub
  generalize ((DLINFO_ITEMS + 1) * 2 + 2 + (envc + argc + 2) + if ibcs = 0 then 3 else 1) * 4 = size
  have hlow : (size &&& 15).toNat = size.toNat % 16 := Align.toNat_and_low (k := 4) size (by decide)
  rw [pad]
  generalize size &&& 15 = r at hlow ⊢
  by_cases hr : r = 0
  · rw [if_neg (not_not.mpr hr)]
    exact ⟨8 + (p - 8).toNat % 16, by omega, by omega, by bv_omega⟩
  · rw [if_pos hr]
    exact ⟨8 + (p - 8).toNat % 16 + (16 - r.toNat), by omega, by bv_omega, by bv_omega⟩

theorem createElfTables_spec {argv envp : List CString} (v : AuxValues) (p ibcs : Word) (m : Mem) (info : ImageInfo)
    (hat : At m p (concat argv ++ concat envp)) (hlen : argv.length + envp.length < 2 ^ 28) (hpos : 0 < p.toNat)
    (hlt : p.toNat + (concat argv ++ concat envp).length < 2 ^ 32) (hmax : (concat argv ++ concat envp).length < 2 ^ 28) :
    ∃ sp m' info', createElfTables v p (BitVec.ofNat 32 argv.length) (BitVec.ofNat 32 envp.length) ibcs m info =
        (sp, m', info') ∧
      StringTables m' sp (ibcs == 0) argv envp p ∧ At m' p (concat argv ++ concat envp) ∧
      Disjoint (Span sp (tablesSize (ibcs == 0) argv.length envp.length)) (Span p (concat argv ++ concat envp).length) := by
  have hsize : tablesSize (ibcs == 0) argv.length envp.length ≤ 12 + 4 * argv.length + 4 + 4 * envp.length + 4 := by
    rw [tablesSize]
    cases (ibcs == 0) <;> simp [argvAt]
  obtain ⟨d, hd, hd', htop⟩ := tablesTop_near v p (BitVec.ofNat 32 argv.length) (BitVec.ofNat 32 envp.length) ibcs
  generalize hn : tablesSize (ibcs == 0) argv.length envp.length = size at hsize ⊢
  generalize hb : p - BitVec.ofNat 32 (size + 120 + d) = b
  have hp : b + BitVec.ofNat 32 (size + 120 + d) = p := by rw [← hb, BitVec.sub_add_cancel]
  have hapart : ∀ i w, i + w ≤ size + 120 + d →
      Disjoint (Span (b + BitVec.ofNat 32 i) w) (Span p (concat argv ++ concat envp).length) := fun i w hi => by
    rw [← hp]
    exact disjoint_span_add hi (by omega)
  have htables : Disjoint (Span b size) (Span p (concat argv ++ concat envp).length) := by
    have := hapart 0 size (by omega)
    rwa [BitVec.add_zero] at this
  have hplat : p - 8 = b + BitVec.ofNat 32 (size + 120 + d - 8) := sub_of_add (k := 8) hp (by omega)
  have hat₁ : At (m.put (p - 8) (elfPlatform v)) p (concat argv ++ concat envp) := by
    refine hat.put (by omega) ?_
    rw [hplat]
    exact hapart _ _ (by rw [show (elfPlatform v).length = 5 from rfl]; omega)
  have haux : 8 * (auxEntries v (p - 8)).length = 120 := rfl
  have hframe := foldl_newAuxEnt_frame (auxEntries v (p - 8))
    (tablesTop v p (BitVec.ofNat 32 argv.length) (BitVec.ofNat 32 envp.length) ibcs, m.put (p - 8) (elfPlatform v))
    (by rw [haux]; decide)
  have hsp := foldl_newAuxEnt_sp (auxEntries v (p - 8))
    (tablesTop v p (BitVec.ofNat 32 argv.length) (BitVec.ofNat 32 envp.length) ibcs, m.put (p - 8) (elfPlatform v))
  have heq := createElfTables_eq v p (BitVec.ofNat 32 argv.length) (BitVec.ofNat 32 envp.length) ibcs m info _ rfl
  rw [heq]
  rw [haux, htop] at hframe hsp
  rw [htop]
  generalize (auxEntries v (p - 8)).foldl newAuxEnt (p - BitVec.ofNat 32 d, m.put (p - 8) (elfPlatform v)) = s at hframe hsp ⊢
  have hauxv : p - BitVec.ofNat 32 d - BitVec.ofNat 32 120 = b + BitVec.ofNat 32 size := by
    rw [sub_of_add hp (Nat.le_add_left d _), Nat.add_sub_cancel]
    exact sub_of_add rfl (Nat.le_add_left 120 size) |>.trans (by rw [Nat.add_sub_cancel])
  dsimp only at hframe hsp
  rw [hauxv] at hframe hsp
  have hat₂ : At s.2 p (concat argv ++ concat envp) := Frame.at hframe hat₁ (by omega) (hapart size 120 (by omega))
  subst hn
  obtain ⟨m', info', hbuild, hframe', htab⟩ := loaderBuildArgptr_spec b p (ibcs == 0) s.2 { info with savedAuxv := s.1 } hat₂
    hlen htables hpos hlt (by omega)
  rw [hsp]
  rw [hsp] at hbuild
  exact ⟨b, m', info', hbuild, htab, hframe'.at hat₂ (by omega) htables, htables⟩

/-! ## The arguments -/

theorem concat_take_add_le (ss : List CString) {i : Nat} (h : i < ss.length) :
    (concat (ss.take i)).length + ss[i].len ≤ (concat ss).length := by
  have hsplit : concat ss = concat (ss.take i) ++ (ss[i].bytes ++ concat (ss.drop (i + 1))) := by
    rw [← concat_cons, ← concat_append, List.getElem_cons_drop, List.take_append_drop]
  rw [hsplit, List.length_append, List.length_append, CString.len]
  omega

/-- Each of the strings is where it begins in the run of all of them. -/
theorem at_concat {m : Mem} {a : Word} {ss : List CString} (h : At m a (concat ss)) {i : Nat} (hi : i < ss.length) :
    At m (a + BitVec.ofNat 32 (concat (ss.take i)).length) ss[i].bytes := by
  have hsplit : concat ss = concat (ss.take i) ++ (ss[i].bytes ++ concat (ss.drop (i + 1))) := by
    rw [← concat_cons, ← concat_append, List.getElem_cons_drop, List.take_append_drop]
  rw [hsplit] at h
  exact h.right.left

/-- What the program finds from its stack pointer on: the number of arguments and tables of
pointers to copies of the strings, which end with a NULL and lie apart from the strings. -/
structure GuestArgs (m : Mem) (sp : Word) (pushPtr : Bool) (argv envp : List CString) : Prop where
  argc : m.ld32 sp = BitVec.ofNat 32 argv.length
  pushed : pushPtr → m.ld32 (sp + 4) = sp + 12 ∧ m.ld32 (sp + 8) = sp + 12 + BitVec.ofNat 32 (4 * argv.length + 4)
  argvCopy : ∀ i (h : i < argv.length), At m (m.ld32 (sp + BitVec.ofNat 32 (argvAt pushPtr + 4 * i))) argv[i].bytes
  argvEnd : m.ld32 (sp + BitVec.ofNat 32 (argvAt pushPtr + 4 * argv.length)) = 0
  envpCopy : ∀ i (h : i < envp.length),
    At m (m.ld32 (sp + BitVec.ofNat 32 (argvAt pushPtr + 4 * argv.length + 4 + 4 * i))) envp[i].bytes
  envpEnd : m.ld32 (sp + BitVec.ofNat 32 (argvAt pushPtr + 4 * argv.length + 4 + 4 * envp.length)) = 0
  argvApart : ∀ i (h : i < argv.length), Disjoint (Span sp (tablesSize pushPtr argv.length envp.length))
    (Span (m.ld32 (sp + BitVec.ofNat 32 (argvAt pushPtr + 4 * i))) argv[i].len)
  envpApart : ∀ i (h : i < envp.length), Disjoint (Span sp (tablesSize pushPtr argv.length envp.length))
    (Span (m.ld32 (sp + BitVec.ofNat 32 (argvAt pushPtr + 4 * argv.length + 4 + 4 * i))) envp[i].len)

theorem StringTables.guestArgs {m : Mem} {sp p : Word} {pushPtr : Bool} {argv envp : List CString}
    (h : StringTables m sp pushPtr argv envp p) (hat : At m p (concat argv ++ concat envp))
    (hmax : (concat argv ++ concat envp).length < 2 ^ 28)
    (hd : Disjoint (Span sp (tablesSize pushPtr argv.length envp.length)) (Span p (concat argv ++ concat envp).length)) :
    GuestArgs m sp pushPtr argv envp := by
  rw [List.length_append] at hmax hd
  refine ⟨h.argc, h.pushed, fun i hi => ?_, h.argvEnd, fun i hi => ?_, h.envpEnd, fun i hi => ?_, fun i hi => ?_⟩
  · rw [h.argvPtr i hi]
    exact at_concat hat.left hi
  · rw [h.envpPtr i hi, BitVec.ofNat_add, ← BitVec.add_assoc]
    exact at_concat hat.right hi
  · rw [h.argvPtr i hi]
    have := concat_take_add_le argv hi
    exact hd.mono_right (span_subset_add (by omega) (by omega))
  · rw [h.envpPtr i hi]
    have := concat_take_add_le envp hi
    exact hd.mono_right (span_subset_add (by omega) (by omega))

theorem length_le_concat (ss : List CString) : ss.length ≤ (concat ss).length := by
  induction ss with
  | nil => exact Nat.zero_le _
  | cons s ss ih =>
    have hpos : 0 < s.bytes.length := s.len_pos
    rw [concat_cons, List.length_append, List.length_cons]
    omega

/-- The byte at `q` in the pages. -/
def ArgPages.byte (page : ArgPages) (q : Nat) : Option Byte := (page (q / pageSize)).map fun pg => pg (q % pageSize)

theorem ArgPages.byte_of_has {page : ArgPages} {q : Nat} (h : page.Has q) : page.byte q = some (page.flat q) := by
  obtain ⟨pg, hpg⟩ := Option.ne_none_iff_exists'.mp h
  rw [byte, hpg, flat_of_some hpg]
  rfl

/-- The strings do not fit, or they are in the pages from the result on and the program finds
them from its stack pointer on. -/
def ArgsReachGuest (filename : CString) (argv envp : List CString) (guestStackSize error : Word) (v : AuxValues)
    (ibcs : Word) (m : Mem) (info : ImageInfo) : Prop :=
  ∃ p page, copyArgs filename argv envp = .ok (p, page) ∧
    (p = 0 ↔ loaderP ≤ (allStrings filename argv envp).length) ∧
    (p ≠ 0 → p + (allStrings filename argv envp).length = loaderP ∧
      (∀ i (h : i < (allStrings filename argv envp).length), page.byte (p + i) = some (allStrings filename argv envp)[i]) ∧
      ∃ p' m' info', setupArgPages guestStackSize error p page m info = .ok (p', m', info') ∧
        ∃ sp m'' info'', createElfTables v p' (BitVec.ofNat 32 argv.length) (BitVec.ofNat 32 envp.length) ibcs m' info' =
            (sp, m'', info'') ∧
          GuestArgs m'' sp (ibcs == 0) argv envp)

/-- The stack `target_mmap` returned lies in the address space. -/
theorem arguments_reach_guest (filename : CString) (argv envp : List CString) (guestStackSize error : Word) (v : AuxValues)
    (ibcs : Word) (m : Mem) (info : ImageInfo) (hmap : error.toNat + (stackSize guestStackSize).toNat ≤ 2 ^ 32) :
    ArgsReachGuest filename argv envp guestStackSize error v ibcs m info := by
  obtain ⟨page, hcopy, hput⟩ := copyArgs_spec filename argv envp
  have hp : loaderP = 135164 := rfl
  have hfile : 0 < (allStrings filename argv envp).length := by
    have hpos : 0 < filename.bytes.length := filename.len_pos
    rw [allStrings, List.length_append]
    omega
  refine ⟨_, page, hcopy, by omega, fun hne => ?_⟩
  have hlt : (allStrings filename argv envp).length < loaderP := by omega
  have hput := hput (by omega)
  refine ⟨by omega, fun i hi => ?_, ?_⟩
  · rw [byte_of_has (hput.has _ (by omega) (by omega)), hput.flat, splice_inside _ _ hi]
  have hsize : 135168 ≤ (stackSize guestStackSize).toNat := by
    rw [stackSize]
    split
    · decide
    · rename_i h
      exact Nat.le_of_not_lt h
  have herr : error ≠ -1 := fun h => by
    rw [h] at hmap
    have : (-1 : Word).toNat = 4294967295 := rfl
    omega
  have hbase : (argBase guestStackSize error).toNat = error.toNat + (stackSize guestStackSize).toNat - 135168 := by
    rw [argBase, show BitVec.ofNat 32 MAX_ARG_PAGES * TARGET_PAGE_SIZE = 135168 from rfl]
    generalize stackSize guestStackSize = size at hmap hsize
    bv_omega
  have hat := at_putArgPages hput (by rw [Nat.sub_add_cancel (by omega)]; decide) (argBase guestStackSize error) m
    { info with stackLimit := error }
  have hsetup : setupArgPages guestStackSize error (loaderP - (allStrings filename argv envp).length) page m info = _ :=
    setupArgPages_eq herr _ page m info
  have hlen : (allStrings filename argv envp).length = (concat argv ++ concat envp).length + filename.bytes.length :=
    List.length_append
  generalize hq : loaderP - (allStrings filename argv envp).length = q at *
  generalize putArgPages page MAX_ARG_PAGES 0 (argBase guestStackSize error) m { info with stackLimit := error } = r
    at hat hsetup
  rw [BitVec.add_comm] at hat
  have hstart : (BitVec.ofNat 32 q + argBase guestStackSize error).toNat = q + (argBase guestStackSize error).toNat := by
    bv_omega
  have hcount := length_le_concat argv
  have hcount' := length_le_concat envp
  have happ : (concat argv ++ concat envp).length = (concat argv).length + (concat envp).length := List.length_append
  obtain ⟨sp, m', info', htables, htab, hat', hd⟩ := createElfTables_spec v (BitVec.ofNat 32 q + argBase guestStackSize error)
    ibcs r.1 r.2 hat.left (by omega) (by omega) (by omega) (by omega)
  exact ⟨_, r.1, r.2, hsetup, sp, m', info', htables, htab.guestArgs hat' (by omega) hd⟩

theorem arguments_reach_guest_echo : ArgsReachGuest ⟨[0x65, 0x63, 0x68, 0x6f], by decide⟩
    [⟨[0x65, 0x63, 0x68, 0x6f], by decide⟩, ⟨[], by decide⟩] [⟨[0x41, 0x3d, 0x31], by decide⟩] 0x800000 0xbf7fe000
    ⟨0x633, 0, 52, 2, 0x8048100, 0x8048000, 0, 0, 1000, 1000, 1000, 1000, 100⟩ 0 (fun _ => 0) {} :=
  arguments_reach_guest _ _ _ _ _ _ _ _ _ (by decide)

end Unitrans
