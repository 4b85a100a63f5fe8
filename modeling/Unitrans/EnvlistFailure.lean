/-
What an envlist is after a call that fails. `envlist_setenv` has taken the old entry out, or
counted the new one, when it comes to its allocations; `envlist_parse` returns `errno`, which
only an allocation sets.
-/
import Unitrans.EnvlistMap

namespace Unitrans

open X86

inductive EnvFunction
  | setenv
  | unsetenv
  deriving DecidableEq

namespace EnvFunction

def call : EnvFunction → EnvlistCallback
  | setenv => envlistSetenv
  | unsetenv => envlistUnsetenv

/-- The strings the function takes. -/
def Takes : EnvFunction → CString → Prop
  | setenv, s => Valued s
  | unsetenv, s => ¬Valued s

instance (f : EnvFunction) (s : CString) : Decidable (f.Takes s) := by
  cases f
  · exact inferInstanceAs (Decidable (Valued s))
  · exact inferInstanceAs (Decidable (¬Valued s))

/-- How many allocations a call makes. -/
def cost : EnvFunction → Nat
  | setenv => 2
  | unsetenv => 0

end EnvFunction

/-! ## One call -/

section

variable (f : EnvFunction) (l : Envlist) (c : Libc) {s : CString}

theorem call_rejects (h : ¬f.Takes s) : f.call l (some s) c = (EINVAL, l, c) := by
  cases f with
  | setenv => exact envlistSetenv_rejects l h
  | unsetenv => exact envlistUnsetenv_rejects l (not_not.mp h)

theorem call_ok (h : f.Takes s) (hc : ∀ i < f.cost, c.allocs i = true) :
    ∃ l', f.call l (some s) c = (0, l', c.after f.cost c.errno) := by
  cases f with
  | setenv => exact ⟨_, envlistSetenv_ok l h (hc 0 (by decide)) (hc 1 (by decide))⟩
  | unsetenv => exact ⟨_, envlistUnsetenv_ok l h⟩

theorem without_ne (l : Envlist) (env : CString) : l.without env ≠ l := by
  intro heq
  unfold Envlist.without at heq
  split at heq
  · rename_i hany
    obtain ⟨e, he, hsame⟩ := List.any_eq_true.mp hany
    have hpos := List.length_pos_of_mem he
    have hlen := List.length_eraseP_of_mem he hsame
    have hentries := congrArg Envlist.entries heq
    dsimp only at hentries
    rw [hentries] at hlen
    omega
  · have hcount := congrArg Envlist.elCount heq
    dsimp only at hcount
    omega

/-- A call that an allocation stops leaves another list. -/
theorem call_fails (h : f.Takes s) {i : Nat} (hi : i < f.cost) (hc : c.allocs i = false) :
    ∃ l' n, f.call l (some s) c = (ENOMEM, l', c.after n ENOMEM) ∧ l' ≠ l := by
  cases f with
  | unsetenv => exact absurd hi (Nat.not_lt_zero i)
  | setenv =>
    have hfail : c.allocs 0 = false ∨ c.allocs 1 = false := by
      have : i = 0 ∨ i = 1 := by
        change i < 2 at hi
        omega
      rcases this with rfl | rfl
      · exact .inl hc
      · exact .inr hc
    obtain ⟨n, hn⟩ := envlistSetenv_fails l h hfail
    exact ⟨_, n, hn, without_ne l s⟩

end

/-- A call leaves the list consistent, and as it was if it fails. -/
def Atomic (l : Envlist) (r : Word × Envlist × Libc) : Prop :=
  (r.1 ≠ 0 → r.2.1 = l) ∧ r.2.1.elCount = r.2.1.entries.length

/-- A call is atomic just when it is not an `envlist_setenv` that an allocation stops. -/
theorem call_atomic_iff (f : EnvFunction) (l : Envlist) (env : Option CString) (c : Libc)
    (hcount : l.elCount = l.entries.length) :
    Atomic l (f.call l env c) ↔
      ¬(f = .setenv ∧ (∃ s ∈ env, Valued s) ∧ (c.allocs 0 = false ∨ c.allocs 1 = false)) := by
  have hrejected : f.call l env c = (EINVAL, l, c) → Atomic l (f.call l env c) := by
    intro heq
    rw [heq]
    exact ⟨fun _ => rfl, hcount⟩
  cases env with
  | none =>
    apply iff_of_true
    · apply hrejected
      cases f with
      | setenv => rfl
      | unsetenv => rfl
    · rintro ⟨-, ⟨s, hs, -⟩, -⟩
      cases hs
  | some s =>
    cases f with
    | unsetenv =>
      apply iff_of_true
      · by_cases hs : Valued s
        · exact hrejected (envlistUnsetenv_rejects l hs)
        · show Atomic l (envlistUnsetenv l (some s) c)
          rw [envlistUnsetenv_ok l hs]
          exact ⟨fun h0 => absurd rfl h0, count_unset (s := (l, c)) hcount⟩
      · rintro ⟨h, -⟩
        cases h
    | setenv =>
      by_cases hs : Valued s
      · by_cases hfail : c.allocs 0 = false ∨ c.allocs 1 = false
        · obtain ⟨n, hn⟩ := envlistSetenv_fails l hs hfail
          have hmore := count_without s (s := (l, c)) hcount
          apply iff_of_false
          · show ¬Atomic l (envlistSetenv l (some s) c)
            rw [hn]
            rintro ⟨-, hsame⟩
            change (l.without s).elCount = (l.without s).entries.length + 1 at hmore
            change (l.without s).elCount = (l.without s).entries.length at hsame
            omega
          · exact not_not.mpr ⟨rfl, ⟨s, rfl, hs⟩, hfail⟩
        · have h0 : c.allocs 0 = true := by simpa using fun h => hfail (.inl h)
          have h1 : c.allocs 1 = true := by simpa using fun h => hfail (.inr h)
          apply iff_of_true
          · show Atomic l (envlistSetenv l (some s) c)
            rw [envlistSetenv_ok l hs h0 h1]
            exact ⟨fun hne => absurd rfl hne, count_without _ (s := (l, c)) hcount⟩
          · exact fun h => hfail h.2.2
      · apply iff_of_true
        · exact hrejected (envlistSetenv_rejects l hs)
        · rintro ⟨-, ⟨t, ht, hvalued⟩, -⟩
          cases ht
          exact hs hvalued

/-- `A=`, in a list of its own. -/
def oneEntry : Envlist := { entries := [⟨[0x41, EQUALS], by decide⟩], elCount := 1 }

theorem call_atomic_iff_one :
    Atomic oneEntry (EnvFunction.setenv.call oneEntry (some ⟨[0x41, EQUALS], by decide⟩) ⟨0, fun _ => false⟩) ↔
      ¬(EnvFunction.setenv = .setenv ∧ (∃ s ∈ some (⟨[0x41, EQUALS], by decide⟩ : CString), Valued s) ∧
        ((⟨0, fun _ => false⟩ : Libc).allocs 0 = false ∨ (⟨0, fun _ => false⟩ : Libc).allocs 1 = false)) :=
  call_atomic_iff .setenv oneEntry _ _ rfl

theorem not_call_atomic :
    ¬∀ (f : EnvFunction) (l : Envlist) (env : Option CString) (c : Libc), l.elCount = l.entries.length →
      Atomic l (f.call l env c) := by
  intro hall
  have hcount := (hall .setenv oneEntry (some ⟨[0x41, EQUALS], by decide⟩) ⟨0, fun _ => false⟩ rfl).2
  exact absurd hcount (by decide)

/-! ## Comma separated lists -/

/-- The non-empty fields of a comma separated list. -/
def envFields (cs : List Byte) : List (List Byte) := (cs.splitOn COMMA).filter (· ≠ [])

theorem envFields_dropWhile (cs : List Byte) : envFields (cs.dropWhile (· == COMMA)) = envFields cs := by
  induction cs with
  | nil => rfl
  | cons x cs ih =>
    by_cases hx : x = COMMA
    · have hhead : envFields (x :: cs) = envFields cs := by
        unfold envFields
        rw [List.splitOn_cons_eq_if_modifyHead, if_pos (by simpa using hx), List.filter_cons_of_neg (by simp)]
      rw [List.dropWhile_cons, if_pos (by simpa using hx), hhead, ih]
    · rw [List.dropWhile_cons, if_neg (by simpa using hx)]

theorem envFields_token {x : Byte} {cs : List Byte} (hx : x ≠ COMMA) :
    envFields (x :: cs) = (x :: cs).takeWhile (· != COMMA) :: envFields ((x :: cs).dropWhile (· != COMMA)).tail := by
  have hsplit := List.takeWhile_append_dropWhile (p := (· != COMMA)) (l := x :: cs)
  have hnone : COMMA ∉ (x :: cs).takeWhile (· != COMMA) := fun h => absurd (List.mem_takeWhile_imp h) (by simp)
  have htok : (x :: cs).takeWhile (· != COMMA) ≠ [] := by
    rw [List.takeWhile_cons, if_pos (by simpa using hx)]
    exact List.cons_ne_nil _ _
  unfold envFields
  cases hdrop : (x :: cs).dropWhile (· != COMMA) with
  | nil =>
    have hall : (x :: cs).takeWhile (· != COMMA) = x :: cs := by
      rw [hdrop, List.append_nil] at hsplit
      exact hsplit
    rw [hall] at hnone ⊢
    rw [List.splitOn_eq_singleton hnone, List.filter_cons_of_pos (by simp)]
    rfl
  | cons y rest =>
    have hy : y = COMMA := by
      have hnot := List.head_dropWhile_not (· != COMMA) (l := x :: cs) (by rw [hdrop]; exact List.cons_ne_nil _ _)
      simp only [hdrop] at hnot
      simpa using hnot
    rw [hdrop, hy] at hsplit
    conv_lhs => rw [← hsplit]
    rw [List.splitOn_append_cons_self_of_not_mem hnone, List.filter_cons_of_pos (by simpa using htok), List.tail_cons]

/-- `strtok_r` goes through the fields. -/
theorem strtok_none {s : CString} (h : strtok s = none) : envFields s.chars = [] := by
  unfold strtok at h
  dsimp only at h
  split at h
  · rename_i hnil
    rw [← envFields_dropWhile, hnil]
    rfl
  · cases h

theorem strtok_some {s tok rest : CString} (h : strtok s = some (tok, rest)) :
    envFields s.chars = tok.chars :: envFields rest.chars := by
  unfold strtok at h
  dsimp only at h
  split at h
  · cases h
  · rename_i hne
    cases h
    obtain ⟨x, cs, hcs⟩ := List.exists_cons_of_ne_nil hne
    have hx : x ≠ COMMA := by
      have hnot := List.head_dropWhile_not (· == COMMA) (l := s.chars) hne
      simp only [hcs] at hnot
      simpa using hnot
    unfold CString.part
    dsimp only
    rw [← envFields_dropWhile, hcs]
    exact envFields_token hx

/-- The loop of `envlist_parse` over the tokens it comes to. -/
def parseList (callback : EnvlistCallback) : List CString → Envlist → Libc → Word × Envlist × Libc
  | [], l, c => (0, l, c)
  | envvar :: rest, l, c =>
    match callback l (some envvar) c with
    | (r, l, c) => if r ≠ 0 then (c.errno, l, c) else parseList callback rest l c

theorem parseTokens_eq (callback : EnvlistCallback) (toks : List CString) (s : CString) (l : Envlist) (c : Libc)
    (htoks : toks.map CString.chars = envFields s.chars) : parseTokens callback s l c = parseList callback toks l c := by
  induction toks generalizing s l c with
  | nil =>
    unfold parseTokens parseList
    split
    · rfl
    · rename_i hsome
      rw [strtok_some hsome] at htoks
      cases htoks
  | cons envvar toks ih =>
    unfold parseTokens parseList
    split
    · rename_i hnone
      rw [strtok_none hnone] at htoks
      cases htoks
    · rename_i tok rest hsome
      rw [strtok_some hsome] at htoks
      obtain ⟨htok, hrest⟩ := List.cons.inj htoks
      have heq : envvar = tok := by
        cases envvar
        cases tok
        cases htok
        rfl
      rw [heq]
      dsimp only
      split
      · rfl
      · exact ih rest _ _ hrest

/-- The list after the tokens, if the function takes every one. -/
def EnvFunction.acceptAll (f : EnvFunction) : List CString → Envlist × Libc → Option (Envlist × Libc)
  | [], s => some s
  | tok :: toks, s =>
    match f.call s.1 (some tok) s.2 with
    | (r, s) => if r = 0 then acceptAll f toks s else none

/-- What the result `r` of the loop says of its tokens, from the state `s`. -/
structure LoopReports (f : EnvFunction) (toks : List CString) (s : Envlist × Libc) (r : Word × Envlist × Libc) : Prop where
  zero_iff : r.1 = 0 ↔ (f.acceptAll toks s).isSome
  rejected : ∀ pre tok post t, toks = pre ++ tok :: post → f.acceptAll pre s = some t →
    (f.call t.1 (some tok) t.2).1 ≠ 0 → r.1 ≠ 0 ∧ r.2.1 = t.1

/-- No allocation fails before a token that is not of the right form, and `errno` stands where there is one. -/
def LoopClear (f : EnvFunction) (toks : List CString) (c : Libc) : Prop :=
  (∀ i < f.cost * (toks.takeWhile fun tok => f.Takes tok).length, c.allocs i = true) ∧ ((∀ tok ∈ toks, f.Takes tok) ∨ c.errno ≠ 0)

section

variable {f : EnvFunction} {tok : CString} {toks : List CString} {l : Envlist} {c : Libc}

theorem parseList_rejects (h : ¬f.Takes tok) :
    LoopReports f (tok :: toks) (l, c) (parseList f.call (tok :: toks) l c) ↔ LoopClear f (tok :: toks) c := by
  have hcall := call_rejects f l c h
  have hloop : parseList f.call (tok :: toks) l c = (c.errno, l, c) := by
    unfold parseList
    rw [hcall]
    exact if_pos (by decide)
  have hnone : f.acceptAll (tok :: toks) (l, c) = none := by
    unfold EnvFunction.acceptAll
    rw [hcall]
    exact if_neg (by decide)
  rw [hloop]
  constructor
  · intro hreports
    refine ⟨fun i hi => ?_, .inr ?_⟩
    · rw [List.takeWhile_cons, if_neg (by simpa using h)] at hi
      exact absurd hi (Nat.not_lt_zero i)
    · intro h0
      have hsome := hreports.zero_iff.mp h0
      rw [hnone] at hsome
      cases hsome
  · rintro ⟨-, herrno⟩
    have herrno : c.errno ≠ 0 := herrno.resolve_left fun hall => h (hall tok List.mem_cons_self)
    constructor
    · rw [hnone]
      exact iff_of_false herrno (by simp)
    · intro pre tok' post t hsplit hpre hrej
      cases pre with
      | nil =>
        cases hpre
        exact ⟨herrno, rfl⟩
      | cons tok'' pre =>
        obtain ⟨rfl, -⟩ := List.cons.inj hsplit
        unfold EnvFunction.acceptAll at hpre
        rw [hcall] at hpre
        dsimp only at hpre
        rw [if_neg (by decide)] at hpre
        cases hpre

theorem parseList_fails (h : f.Takes tok) {i : Nat} (hi : i < f.cost) (hc : c.allocs i = false) :
    LoopReports f (tok :: toks) (l, c) (parseList f.call (tok :: toks) l c) ↔ LoopClear f (tok :: toks) c := by
  obtain ⟨l', n, hcall, hne⟩ := call_fails f l c h hi hc
  have hloop : parseList f.call (tok :: toks) l c = (ENOMEM, l', c.after n ENOMEM) := by
    unfold parseList
    rw [hcall]
    exact if_pos (by decide)
  apply iff_of_false
  · rw [hloop]
    intro hreports
    have hrej : (f.call l (some tok) c).1 ≠ 0 := by
      rw [hcall]
      exact show ENOMEM ≠ 0 by decide
    exact hne (hreports.rejected [] tok toks (l, c) rfl rfl hrej).2
  · rintro ⟨hallocs, -⟩
    rw [List.takeWhile_cons, if_pos (by simpa using h), List.length_cons, Nat.mul_succ] at hallocs
    have := hallocs i (by omega)
    rw [hc] at this
    cases this

theorem parseList_ok (h : f.Takes tok) (hc : ∀ i < f.cost, c.allocs i = true)
    (ih : ∀ l c, LoopReports f toks (l, c) (parseList f.call toks l c) ↔ LoopClear f toks c) :
    LoopReports f (tok :: toks) (l, c) (parseList f.call (tok :: toks) l c) ↔ LoopClear f (tok :: toks) c := by
  obtain ⟨l', hcall⟩ := call_ok f l c h hc
  have hloop : parseList f.call (tok :: toks) l c = parseList f.call toks l' (c.after f.cost c.errno) := by
    conv_lhs => unfold parseList
    rw [hcall]
    exact if_neg (not_not.mpr rfl)
  have haccept (rest : List CString) :
      f.acceptAll (tok :: rest) (l, c) = f.acceptAll rest (l', c.after f.cost c.errno) := by
    conv_lhs => unfold EnvFunction.acceptAll
    rw [hcall]
    exact if_pos rfl
  have hclear : LoopClear f (tok :: toks) c ↔ LoopClear f toks (c.after f.cost c.errno) := by
    unfold LoopClear
    rw [List.takeWhile_cons, if_pos (by simpa using h), List.length_cons, Nat.mul_succ, List.forall_mem_cons]
    apply and_congr
    · constructor
      · intro hall i hi
        exact hall (i + f.cost) (by omega)
      · intro hall i hi
        by_cases hlt : i < f.cost
        · exact hc i hlt
        · have := hall (i - f.cost) (by omega)
          change c.allocs (i - f.cost + f.cost) = true at this
          rwa [Nat.sub_add_cancel (Nat.le_of_not_lt hlt)] at this
    · exact or_congr_left (and_iff_right h)
  rw [hloop, hclear, ← ih]
  constructor
  · intro hreports
    constructor
    · rw [← haccept]
      exact hreports.zero_iff
    · intro pre tok' post t hsplit hpre hrej
      exact hreports.rejected (tok :: pre) tok' post t (by rw [hsplit]; rfl) (by rw [haccept]; exact hpre) hrej
  · intro hreports
    constructor
    · rw [haccept]
      exact hreports.zero_iff
    · intro pre tok' post t hsplit hpre hrej
      cases pre with
      | nil =>
        obtain ⟨rfl, rfl⟩ := List.cons.inj hsplit
        cases hpre
        rw [hcall] at hrej
        exact absurd rfl hrej
      | cons tok'' pre =>
        obtain ⟨rfl, hrest⟩ := List.cons.inj hsplit
        rw [haccept] at hpre
        exact hreports.rejected pre tok' post t hrest hpre hrej

end

theorem parseList_reports_iff (f : EnvFunction) : ∀ (toks : List CString) (l : Envlist) (c : Libc),
    LoopReports f toks (l, c) (parseList f.call toks l c) ↔ LoopClear f toks c
  | [], l, c => by
    apply iff_of_true
    · constructor
      · exact iff_of_true rfl rfl
      · intro pre tok post t hsplit
        cases pre <;> cases hsplit
    · exact ⟨fun i hi => absurd hi (Nat.not_lt_zero i), .inl (List.forall_mem_nil _)⟩
  | tok :: toks, l, c => by
    by_cases h : f.Takes tok
    · by_cases hc : ∀ i < f.cost, c.allocs i = true
      · exact parseList_ok h hc fun l c => parseList_reports_iff f toks l c
      · push Not at hc
        obtain ⟨i, hi, hfail⟩ := hc
        exact parseList_fails h hi (by simpa using hfail)
    · exact parseList_rejects h

/-- What the result of `envlist_parse` says of the tokens; where the copy cannot be made, no token is taken. -/
structure Reports (f : EnvFunction) (toks : List CString) (l : Envlist) (c : Libc) (r : Word × Envlist × Libc) : Prop where
  zero_iff : r.1 = 0 ↔ toks = [] ∨ c.allocs 0 = true ∧ (f.acceptAll toks (l, c.after 1 c.errno)).isSome
  rejected : c.allocs 0 = true → ∀ pre tok post t, toks = pre ++ tok :: post →
    f.acceptAll pre (l, c.after 1 c.errno) = some t → (f.call t.1 (some tok) t.2).1 ≠ 0 → r.1 ≠ 0 ∧ r.2.1 = t.1

/-- `envlist_parse` tells what became of the tokens just when none of its allocations fails (or the first one does, and
there is a token) and either every token is of the right form or `errno` was set before. -/
theorem envlistParse_reports_iff (f : EnvFunction) (l : Envlist) (env : CString) (c : Libc) (toks : List CString)
    (htoks : toks.map CString.chars = envFields env.chars) :
    Reports f toks l c (envlistParse f.call l (some env) c) ↔
      (c.allocs 0 = true ∧ LoopClear f toks (c.after 1 c.errno)) ∨ c.allocs 0 = false ∧ toks ≠ [] := by
  unfold envlistParse
  dsimp only
  cases h0 : c.allocs 0 with
  | false =>
    rw [alloc_fails h0]
    dsimp only
    have hne : ENOMEM ≠ 0 := by decide
    constructor
    · intro hreports
      refine .inr ⟨rfl, fun hnil => ?_⟩
      exact hne (hreports.zero_iff.mpr (.inl hnil))
    · rintro (⟨h, -⟩ | ⟨-, hnil⟩)
      · cases h
      · constructor
        · rw [h0]
          exact iff_of_false hne (by rintro (hn | ⟨h, -⟩); exacts [hnil hn, by cases h])
        · intro h
          rw [h0] at h
          cases h
  | true =>
    rw [alloc_ok h0]
    dsimp only
    rw [parseTokens_eq f.call toks env _ _ htoks]
    have hloop := parseList_reports_iff f toks l (c.after 1 c.errno)
    constructor
    · intro hreports
      refine .inl ⟨rfl, hloop.mp ⟨?_, hreports.rejected h0⟩⟩
      rw [hreports.zero_iff, h0]
      constructor
      · rintro (rfl | ⟨-, h⟩)
        · rfl
        · exact h
      · exact fun h => .inr ⟨rfl, h⟩
    · rintro (⟨-, hclear⟩ | ⟨h, -⟩)
      · have hreports := hloop.mpr hclear
        constructor
        · rw [hreports.zero_iff, h0]
          constructor
          · exact fun h => .inr ⟨rfl, h⟩
          · rintro (rfl | ⟨-, h⟩)
            · rfl
            · exact h
        · exact fun _ => hreports.rejected
      · cases h

/-- `B`, which is no setting. -/
def bareName : CString := ⟨[0x42], by decide⟩

theorem envlistParse_reports_iff_bare :
    [bareName].map CString.chars = envFields bareName.chars ∧
      (Reports .setenv [bareName] oneEntry ⟨0, fun _ => true⟩
          (envlistParse EnvFunction.setenv.call oneEntry (some bareName) ⟨0, fun _ => true⟩) ↔
        ((⟨0, fun _ => true⟩ : Libc).allocs 0 = true ∧ LoopClear .setenv [bareName] (Libc.after ⟨0, fun _ => true⟩ 1 0)) ∨
          (⟨0, fun _ => true⟩ : Libc).allocs 0 = false ∧ [bareName] ≠ []) :=
  ⟨by decide, envlistParse_reports_iff .setenv oneEntry bareName ⟨0, fun _ => true⟩ [bareName] (by decide)⟩

theorem not_envlistParse_reports :
    ¬∀ (f : EnvFunction) (l : Envlist) (env : CString) (c : Libc) (toks : List CString),
      toks.map CString.chars = envFields env.chars → Reports f toks l c (envlistParse f.call l (some env) c) := by
  intro hall
  have hreports := hall .setenv oneEntry bareName ⟨0, fun _ => true⟩ [bareName] (by decide)
  have hloop : parseList EnvFunction.setenv.call [bareName] oneEntry (Libc.after ⟨0, fun _ => true⟩ 1 0) =
      (0, oneEntry, Libc.after ⟨0, fun _ => true⟩ 1 0) := rfl
  have hzero : (envlistParse EnvFunction.setenv.call oneEntry (some bareName) ⟨0, fun _ => true⟩).1 = 0 := by
    unfold envlistParse
    dsimp only
    rw [alloc_ok rfl]
    dsimp only
    rw [parseTokens_eq _ [bareName] _ _ _ (by decide), hloop]
  rcases hreports.zero_iff.mp hzero with hnil | ⟨-, hsome⟩
  · cases hnil
  · exact absurd hsome (by decide)

end Unitrans
