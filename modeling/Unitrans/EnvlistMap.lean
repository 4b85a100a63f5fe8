/-
An envlist as a map from names to entries. A set finds the entry of its name, by the name
and the `=`; an unset finds the first entry that begins with the name.
-/
import Unitrans.Envlist
import Unitrans.Library.KeyedList
import Mathlib.Data.List.TakeWhile

namespace Unitrans

open X86

/-! ## Strings -/

theorem strncmp_eq_zero {a b : List Byte} (ha : 0 ∉ a) (hb : 0 ∉ b) (n : Nat) :
    strncmp a b n = 0 ↔ a.take n = b.take n := by
  induction n generalizing a b with
  | zero =>
    unfold strncmp
    simp
  | succ n ih =>
    unfold strncmp
    dsimp only
    cases a with
    | nil =>
      cases b with
      | nil => simp
      | cons y b =>
        have hy : y ≠ 0 := fun h => hb (h ▸ List.mem_cons_self)
        rw [if_pos (by simpa using Ne.symm hy)]
        have hpos : y.toNat ≠ 0 := fun h => hy (BitVec.eq_of_toNat_eq h)
        simp
        omega
    | cons x a =>
      have hx : x ≠ 0 := fun h => ha (h ▸ List.mem_cons_self)
      cases b with
      | nil =>
        rw [if_pos (by simpa using hx)]
        have hpos : x.toNat ≠ 0 := fun h => hx (BitVec.eq_of_toNat_eq h)
        simp
        omega
      | cons y b =>
        rw [List.headD_cons, List.headD_cons, List.tail_cons, List.tail_cons, List.take_succ_cons, List.take_succ_cons]
        by_cases hxy : x = y
        · rw [if_neg (not_not.mpr hxy), if_neg hx, ih (fun h => ha (List.mem_cons_of_mem _ h)) fun h => hb (List.mem_cons_of_mem _ h)]
          simp [hxy]
        · have hne : x.toNat ≠ y.toNat := fun h => hxy (BitVec.eq_of_toNat_eq h)
          rw [if_pos hxy]
          simp [hxy]
          omega

/-- The text before the first `=`. -/
def nameOf (e : CString) : List Byte := e.chars.takeWhile (· != EQUALS)

/-- Whether a string is of the form `NAME=VALUE`. -/
def Valued (e : CString) : Prop := EQUALS ∈ e.chars

instance (e : CString) : Decidable (Valued e) := inferInstanceAs (Decidable (_ ∈ _))

theorem Valued.eq {e : CString} (h : Valued e) : ∃ value, e.chars = nameOf e ++ EQUALS :: value := by
  have hsplit := List.takeWhile_append_dropWhile (p := (· != EQUALS)) (l := e.chars)
  cases hdrop : e.chars.dropWhile (· != EQUALS) with
  | nil =>
    rw [hdrop, List.append_nil] at hsplit
    unfold Valued at h
    rw [← hsplit] at h
    exact absurd (List.mem_takeWhile_imp h) (by simp)
  | cons x value =>
    have hx : x = EQUALS := by
      have hhead := List.head_dropWhile_not (· != EQUALS) (l := e.chars) (by rw [hdrop]; exact List.cons_ne_nil _ _)
      simp only [hdrop] at hhead
      simpa using hhead
    refine ⟨value, ?_⟩
    rw [hdrop, hx] at hsplit
    exact hsplit.symm

theorem equals_notMem_nameOf (e : CString) : EQUALS ∉ nameOf e := fun h => absurd (List.mem_takeWhile_imp h) (by simp)

theorem nameOf_eq {e : CString} {name value : List Byte} (hname : EQUALS ∉ name) (he : e.chars = name ++ EQUALS :: value) :
    nameOf e = name := by
  unfold nameOf
  rw [he, List.takeWhile_append_of_pos]
  · simp
  · intro x hx
    simpa using fun h : x = EQUALS => hname (h ▸ hx)

theorem idxOf?_append_cons {x : Byte} {a : List Byte} (ha : x ∉ a) (b : List Byte) :
    (a ++ x :: b).idxOf? x = some a.length := by
  induction a with
  | nil => simp [List.idxOf?_cons]
  | cons y a ih =>
    have hy : (y == x) = false := by simpa using fun h : y = x => ha (h ▸ List.mem_cons_self)
    rw [List.cons_append, List.idxOf?_cons, hy, ih fun h => ha (List.mem_cons_of_mem _ h)]
    rfl

theorem strchr_of_valued {e : CString} (h : Valued e) : strchr e EQUALS = some (nameOf e).length := by
  obtain ⟨value, hvalue⟩ := h.eq
  unfold strchr
  rw [hvalue]
  exact idxOf?_append_cons (equals_notMem_nameOf e) value

theorem strchr_of_not_valued {e : CString} (h : ¬Valued e) : strchr e EQUALS = none := List.idxOf?_eq_none_iff.mpr h

/-- What `envlist_setenv` compares. -/
theorem sameName_set {env e : CString} (henv : Valued env) (he : Valued e) :
    sameName env ((nameOf env).length + 1) e ↔ nameOf e = nameOf env := by
  obtain ⟨value, hvalue⟩ := henv.eq
  have htake : env.chars.take ((nameOf env).length + 1) = nameOf env ++ [EQUALS] := by
    rw [hvalue, List.take_append]
    simp
  unfold sameName
  rw [beq_iff_eq, strncmp_eq_zero e.noNul env.noNul, htake]
  constructor
  · intro heq
    have hsplit : e.chars = nameOf env ++ EQUALS :: e.chars.drop ((nameOf env).length + 1) := by
      conv_lhs => rw [← List.take_append_drop ((nameOf env).length + 1) e.chars, heq]
      simp
    exact nameOf_eq (equals_notMem_nameOf env) hsplit
  · intro heq
    obtain ⟨value', hvalue'⟩ := he.eq
    rw [hvalue', heq, List.take_append]
    simp

/-- What `envlist_unsetenv` compares. -/
theorem sameName_unset {name e : CString} : sameName name name.chars.length e ↔ name.chars <+: e.chars := by
  unfold sameName
  rw [beq_iff_eq, strncmp_eq_zero e.noNul name.noNul, List.take_length, List.prefix_iff_eq_take]
  exact eq_comm

/-! ## The operations -/

/-- After `n` more allocations. -/
def Libc.after (c : Libc) (n : Nat) (errno : Word) : Libc := { errno := errno, allocs := fun i => c.allocs (i + n) }

theorem alloc_ok {c : Libc} (h : c.allocs 0 = true) : c.alloc = (true, c.after 1 c.errno) := by
  unfold Libc.alloc
  dsimp only
  rw [if_pos h]
  rfl

theorem alloc_fails {c : Libc} (h : c.allocs 0 = false) : c.alloc = (false, c.after 1 ENOMEM) := by
  unfold Libc.alloc
  dsimp only
  rw [if_neg (by rw [h]; exact Bool.false_ne_true)]
  rfl

/-- The list when `envlist_setenv` comes to its allocations. -/
def Envlist.without (l : Envlist) (env : CString) : Envlist :=
  if l.entries.any (sameName env ((nameOf env).length + 1)) then
    { l with entries := l.entries.eraseP (sameName env ((nameOf env).length + 1)) }
  else { l with elCount := l.elCount + 1 }

section

variable (l : Envlist) {env : CString} {c : Libc}

theorem envlistSetenv_rejects (h : ¬Valued env) : envlistSetenv l (some env) c = (EINVAL, l, c) := by
  unfold envlistSetenv
  dsimp only
  rw [strchr_of_not_valued h]

theorem envlistSetenv_ok (h : Valued env) (h0 : c.allocs 0 = true) (h1 : c.allocs 1 = true) :
    envlistSetenv l (some env) c =
      (0, { l.without env with entries := env :: (l.without env).entries }, c.after 2 c.errno) := by
  unfold envlistSetenv
  dsimp only
  rw [strchr_of_valued h]
  dsimp only
  rw [alloc_ok h0]
  dsimp only
  rw [alloc_ok (c := c.after 1 c.errno) h1]
  rfl

theorem envlistSetenv_fails (h : Valued env) (hfail : c.allocs 0 = false ∨ c.allocs 1 = false) :
    ∃ n, envlistSetenv l (some env) c = (ENOMEM, l.without env, c.after n ENOMEM) := by
  unfold envlistSetenv
  dsimp only
  rw [strchr_of_valued h]
  dsimp only
  cases h0 : c.allocs 0 with
  | false =>
    rw [alloc_fails h0]
    exact ⟨1, rfl⟩
  | true =>
    have h1 : c.allocs 1 = false := by
      rcases hfail with hfail | hfail
      · rw [h0] at hfail
        cases hfail
      · exact hfail
    rw [alloc_ok h0]
    dsimp only
    rw [alloc_fails (c := c.after 1 c.errno) h1]
    exact ⟨2, rfl⟩

theorem envlistUnsetenv_rejects (h : Valued env) : envlistUnsetenv l (some env) c = (EINVAL, l, c) := by
  unfold envlistUnsetenv
  dsimp only
  rw [strchr_of_valued h]

/-- `envlist_unsetenv` of a name. -/
def Envlist.unset (l : Envlist) (name : CString) : Envlist :=
  if l.entries.any (sameName name name.chars.length) then
    { entries := l.entries.eraseP (sameName name name.chars.length), elCount := l.elCount - 1 }
  else l

theorem envlistUnsetenv_ok (h : ¬Valued env) : envlistUnsetenv l (some env) c = (0, l.unset env, c) := by
  unfold envlistUnsetenv Envlist.unset
  dsimp only
  rw [strchr_of_not_valued h]
  dsimp only
  split
  · rfl
  · rfl

end

/-! ## Runs -/

/-- A call. -/
inductive EnvOp
  | set (env : CString)
  | unset (name : CString)

namespace EnvOp

def apply (op : EnvOp) (s : Envlist × Libc) : Envlist × Libc :=
  match op with
  | set env => (envlistSetenv s.1 (some env) s.2).2
  | unset name => (envlistUnsetenv s.1 (some name) s.2).2

/-- What the call does to a map from names to entries. -/
def spec (m : List Byte → Option CString) (op : EnvOp) : List Byte → Option CString :=
  match op with
  | set env => if Valued env then Function.update m (nameOf env) (some env) else m
  | unset name => if Valued name then m else Function.update m name.chars none

/-- No unset meets an entry of another name first: the first entry that begins with the name is the name's. -/
def Clear (op : EnvOp) (l : Envlist) : Prop :=
  match op with
  | set _ => True
  | unset name => ¬Valued name → ∀ e ∈ l.entries.find? (sameName name name.chars.length), nameOf e = name.chars

end EnvOp

/-- The calls on a new list. -/
def runCalls (ops : List EnvOp) (c : Libc) : Envlist × Libc :=
  ops.foldl (fun s op => op.apply s) ({ entries := [], elCount := 0 }, c)

/-- Every allocation succeeds. -/
def Ample (c : Libc) : Prop := ∀ n, c.allocs n = true

/-- What is true of a list that is used right, and `m` maps the names to its entries. -/
structure EnvInv (m : List Byte → Option CString) (s : Envlist × Libc) : Prop where
  valued : ∀ e ∈ s.1.entries, Valued e
  distinct : (s.1.entries.map nameOf).Nodup
  count : s.1.elCount = s.1.entries.length
  lookup : KeyedList.lookup nameOf s.1.entries = m
  ample : Ample s.2

section

variable {m : List Byte → Option CString} {s : Envlist × Libc} {env name : CString}

theorem entries_without (h : EnvInv m s) (henv : Valued env) :
    (s.1.without env).entries = KeyedList.remove nameOf s.1.entries (nameOf env) := by
  have hsame : ∀ e ∈ s.1.entries, sameName env ((nameOf env).length + 1) e = decide (nameOf e = nameOf env) := by
    intro e he
    rw [Bool.eq_iff_iff, decide_eq_true_iff]
    exact sameName_set henv (h.valued e he)
  have hremove : s.1.entries.eraseP (sameName env ((nameOf env).length + 1)) =
      KeyedList.remove nameOf s.1.entries (nameOf env) := by
    apply KeyedList.eraseP_eq_remove
    · intro e he hname
      rw [hsame e he]
      exact decide_eq_true hname
    · intro e he
      exact (sameName_set henv (h.valued e (List.mem_of_find?_eq_some he))).mp (List.find?_some he)
  unfold Envlist.without
  split
  · exact hremove
  · rename_i hnone
    rw [← hremove, List.eraseP_of_forall_not]
    intro e he
    have hall : ∀ x ∈ s.1.entries, ¬sameName env ((nameOf env).length + 1) x := by simpa using hnone
    exact hall e he

theorem count_without (env : CString) (h : s.1.elCount = s.1.entries.length) :
    (s.1.without env).elCount = (s.1.without env).entries.length + 1 := by
  unfold Envlist.without
  split
  · rename_i hany
    obtain ⟨e, he, hsame⟩ := List.any_eq_true.mp hany
    have hpos := List.length_pos_of_mem he
    rw [List.length_eraseP_of_mem he hsame, h]
    omega
  · rw [h]

theorem count_unset (h : s.1.elCount = s.1.entries.length) : (s.1.unset name).elCount = (s.1.unset name).entries.length := by
  unfold Envlist.unset
  split
  · rename_i hany
    obtain ⟨e, he, hsame⟩ := List.any_eq_true.mp hany
    rw [List.length_eraseP_of_mem he hsame, h]
  · exact h

theorem set_inv (h : EnvInv m s) (henv : Valued env) : EnvInv ((EnvOp.set env).spec m) ((EnvOp.set env).apply s) := by
  have hentries := entries_without h henv
  have hcount := count_without env h.count
  unfold EnvOp.spec EnvOp.apply
  dsimp only
  rw [if_pos henv, envlistSetenv_ok s.1 henv (h.ample 0) (h.ample 1)]
  constructor
  · intro e he
    rcases List.mem_cons.mp he with rfl | he
    · exact henv
    · rw [hentries] at he
      exact h.valued e (List.eraseP_sublist.subset he)
  · show (nameOf env :: (s.1.without env).entries.map nameOf).Nodup
    rw [hentries]
    exact List.nodup_cons.mpr
      ⟨KeyedList.not_mem_remove_keys nameOf h.distinct _, KeyedList.remove_keys_nodup nameOf h.distinct _⟩
  · exact hcount
  · show KeyedList.lookup nameOf (env :: (s.1.without env).entries) = _
    rw [KeyedList.lookup_cons, hentries, KeyedList.lookup_remove nameOf h.distinct, Function.update_idem, h.lookup]
  · exact fun n => h.ample (n + 2)

/-- The entry of the name begins with it. -/
theorem sameName_of_name {e : CString} (h : nameOf e = name.chars) : sameName name name.chars.length e :=
  sameName_unset.mpr (h ▸ List.takeWhile_prefix _)

theorem unset_inv (h : EnvInv m s) (hname : ¬Valued name) (hclear : (EnvOp.unset name).Clear s.1) :
    EnvInv ((EnvOp.unset name).spec m) ((EnvOp.unset name).apply s) := by
  have hremove : s.1.entries.eraseP (sameName name name.chars.length) = KeyedList.remove nameOf s.1.entries name.chars :=
    KeyedList.eraseP_eq_remove nameOf (fun e _ he => sameName_of_name he) (hclear hname)
  have hentries : (s.1.unset name).entries = KeyedList.remove nameOf s.1.entries name.chars := by
    rw [← hremove]
    unfold Envlist.unset
    split
    · rfl
    · rename_i hnone
      rw [List.eraseP_of_forall_not]
      have hall : ∀ x ∈ s.1.entries, ¬sameName name name.chars.length x := by simpa using hnone
      exact hall
  unfold EnvOp.spec EnvOp.apply
  dsimp only
  rw [if_neg hname, envlistUnsetenv_ok s.1 hname]
  constructor
  · intro e he
    dsimp only at he
    rw [hentries] at he
    exact h.valued e (List.eraseP_sublist.subset he)
  · dsimp only
    rw [hentries]
    exact KeyedList.remove_keys_nodup nameOf h.distinct _
  · exact count_unset h.count
  · dsimp only
    rw [hentries, KeyedList.lookup_remove nameOf h.distinct, h.lookup]
  · exact h.ample

/-- An unset that meets another name's entry first takes that away. -/
theorem clear_of_lookup (h : EnvInv m s) (hname : ¬Valued name)
    (hlookup : KeyedList.lookup nameOf ((EnvOp.unset name).apply s).1.entries = (EnvOp.unset name).spec m) :
    (EnvOp.unset name).Clear s.1 := by
  intro _ e he
  by_contra hne
  have hmem := List.mem_of_find?_eq_some he
  have hany : s.1.entries.any (sameName name name.chars.length) := List.any_eq_true.mpr ⟨e, hmem, List.find?_some he⟩
  have hafter := congrFun hlookup (nameOf e)
  unfold EnvOp.spec EnvOp.apply at hafter
  dsimp only at hafter
  rw [if_neg hname, envlistUnsetenv_ok s.1 hname, Function.update_of_ne hne, ← h.lookup,
    KeyedList.lookup_eq_some nameOf h.distinct hmem] at hafter
  unfold Envlist.unset at hafter
  rw [if_pos hany, KeyedList.lookup_eraseP_first nameOf h.distinct he] at hafter
  cases hafter

theorem reject_inv {op : EnvOp} (h : EnvInv m s) (hspec : op.spec m = m) (happly : op.apply s = s) :
    EnvInv (op.spec m) (op.apply s) := by
  rw [hspec, happly]
  exact h

end

/-- One call does what it does to the map just when it is `Clear`. -/
theorem apply_inv {m : List Byte → Option CString} {s : Envlist × Libc} (h : EnvInv m s) (op : EnvOp) :
    (op.Clear s.1 → EnvInv (op.spec m) (op.apply s)) ∧
      (KeyedList.lookup nameOf (op.apply s).1.entries = op.spec m → op.Clear s.1) := by
  cases op with
  | set env =>
    refine ⟨fun _ => ?_, fun _ => trivial⟩
    by_cases henv : Valued env
    · exact set_inv h henv
    · refine reject_inv h (if_neg henv) ?_
      unfold EnvOp.apply
      dsimp only
      rw [envlistSetenv_rejects s.1 henv]
  | unset name =>
    by_cases hname : Valued name
    · refine ⟨fun _ => reject_inv h (if_pos hname) ?_, fun _ hno => absurd hname hno⟩
      unfold EnvOp.apply
      dsimp only
      rw [envlistUnsetenv_rejects s.1 hname]
    · exact ⟨unset_inv h hname, clear_of_lookup h hname⟩

theorem dupEntries_ample : ∀ (es : List CString) (c : Libc), Ample c → ∃ c', dupEntries es c = (es.map some, c')
  | [], c, _ => ⟨c, rfl⟩
  | e :: es, c, hc => by
    obtain ⟨c', hc'⟩ := dupEntries_ample es (c.after 1 c.errno) fun n => hc (n + 1)
    refine ⟨c', ?_⟩
    unfold dupEntries
    rw [alloc_ok (hc 0)]
    dsimp only
    rw [hc']
    rfl

theorem envlistToEnviron_ample {l : Envlist} {c : Libc} (hcount : l.elCount = l.entries.length) (hc : Ample c) :
    ∃ c', envlistToEnviron l c = .ok (some (l.entries.map some ++ [none], l.entries.length), c') := by
  obtain ⟨c', hc'⟩ := dupEntries_ample l.entries (c.after 1 c.errno) fun n => hc (n + 1)
  refine ⟨c', ?_⟩
  unfold envlistToEnviron
  rw [alloc_ok (hc 0)]
  dsimp only
  rw [hc']
  dsimp only
  rw [List.length_map, if_pos (by omega), hcount]

/-- The list after the calls `ops` is the map they make. -/
structure IsMap (ops : List EnvOp) (s : Envlist × Libc) : Prop where
  distinct : (s.1.entries.map nameOf).Nodup
  count : s.1.elCount = s.1.entries.length
  lookup : KeyedList.lookup nameOf s.1.entries = ops.foldl EnvOp.spec fun _ => none
  environ : ∃ c, envlistToEnviron s.1 s.2 = .ok (some (s.1.entries.map some ++ [none], s.1.entries.length), c)

theorem EnvInv.isMap {ops : List EnvOp} {s : Envlist × Libc} (h : EnvInv (ops.foldl EnvOp.spec fun _ => none) s) :
    IsMap ops s :=
  ⟨h.distinct, h.count, h.lookup, envlistToEnviron_ample h.count h.ample⟩

theorem take_succ_of_getElem? {α : Type*} {l : List α} {n : Nat} {a : α} (h : l[n]? = some a) :
    l.take (n + 1) = l.take n ++ [a] := by
  rw [List.take_add_one, h]
  rfl

/-- After every number of calls the list is a map, if each call is `Clear` where it is made or the
list after it is a map. -/
theorem runCalls_inv {ops : List EnvOp} {c : Libc} (hc : Ample c)
    (hstep : ∀ (n : Nat) (op : EnvOp), ops[n]? = some op → op.Clear (runCalls (ops.take n) c).1 ∨ IsMap (ops.take (n + 1)) (runCalls (ops.take (n + 1)) c)) :
    ∀ n, EnvInv ((ops.take n).foldl EnvOp.spec fun _ => none) (runCalls (ops.take n) c)
  | 0 => ⟨List.forall_mem_nil _, List.nodup_nil, rfl, rfl, hc⟩
  | n + 1 => by
    have ih := runCalls_inv hc hstep n
    cases hop : ops[n]? with
    | none =>
      have hlen := List.getElem?_eq_none_iff.mp hop
      rw [List.take_of_length_le (by omega)]
      rwa [List.take_of_length_le hlen] at ih
    | some op =>
      have hclear : op.Clear (runCalls (ops.take n) c).1 := by
        rcases hstep n op hop with hclear | hmap
        · exact hclear
        · have hlookup := hmap.lookup
          rw [take_succ_of_getElem? hop, runCalls, List.foldl_concat, List.foldl_concat] at hlookup
          exact (apply_inv ih op).2 hlookup
      rw [take_succ_of_getElem? hop, runCalls, List.foldl_concat, List.foldl_concat]
      exact (apply_inv ih op).1 hclear

/-- The calls make a map all along just when no unset meets an entry of another name first. -/
theorem runCalls_isMap_iff (ops : List EnvOp) (c : Libc) (hc : Ample c) :
    (∀ n, IsMap (ops.take n) (runCalls (ops.take n) c)) ↔
      ∀ (n : Nat) (op : EnvOp), ops[n]? = some op → op.Clear (runCalls (ops.take n) c).1 := by
  constructor
  · intro hmap n op hop
    have hinv := runCalls_inv hc (fun n _ _ => .inr (hmap (n + 1))) n
    have hlookup := (hmap (n + 1)).lookup
    rw [take_succ_of_getElem? hop, runCalls, List.foldl_concat, List.foldl_concat] at hlookup
    exact (apply_inv hinv op).2 hlookup
  · intro hclear n
    exact (runCalls_inv hc (fun n op hop => .inl (hclear n op hop)) n).isMap

/-- `AB=`, and then `A` is unset. -/
def prefixCalls : List EnvOp := [.set ⟨[0x41, 0x42, EQUALS], by decide⟩, .unset ⟨[0x41], by decide⟩]

theorem runCalls_isMap_iff_prefix :
    (∀ n, IsMap (prefixCalls.take n) (runCalls (prefixCalls.take n) ⟨0, fun _ => true⟩)) ↔
      ∀ (n : Nat) (op : EnvOp), prefixCalls[n]? = some op → op.Clear (runCalls (prefixCalls.take n) ⟨0, fun _ => true⟩).1 :=
  runCalls_isMap_iff prefixCalls ⟨0, fun _ => true⟩ fun _ => rfl

theorem not_runCalls_isMap :
    ¬∀ (ops : List EnvOp) (c : Libc), Ample c → ∀ n, IsMap (ops.take n) (runCalls (ops.take n) c) := by
  intro hall
  have hlookup := congrFun (hall prefixCalls ⟨0, fun _ => true⟩ (fun _ => rfl) 2).lookup [0x41, 0x42]
  have hgone : (runCalls (prefixCalls.take 2) ⟨0, fun _ => true⟩).1.entries.isEmpty := by decide
  rw [List.isEmpty_iff.mp hgone] at hlookup
  have hstays : ((prefixCalls.take 2).foldl EnvOp.spec fun _ => none) [0x41, 0x42] ≠ none := by decide
  exact hstays hlookup.symm

end Unitrans
