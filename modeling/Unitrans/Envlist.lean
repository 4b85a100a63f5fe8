/-
The environment of the guest as `main` collects it (`envlist.c`): a list of
`NAME=VALUE` strings and a count. What an allocation does comes from outside.
-/
import Unitrans.LinuxLoad

namespace Unitrans

open X86

def ENOMEM : Word := 12
def EINVAL : Word := 22

/-- `'='` -/
def EQUALS : Byte := 0x3d
/-- `','` -/
def COMMA : Byte := 0x2c

/-! ## The C library -/

/-- `errno`, and whether the next allocations succeed. -/
structure Libc where
  errno : Word
  allocs : Nat → Bool

/-- `malloc` and `strdup`, as far as they can fail. -/
def Libc.alloc (c : Libc) : Bool × Libc :=
  let rest := fun n => c.allocs (n + 1)
  if c.allocs 0 then (true, { errno := c.errno, allocs := rest }) else (false, { errno := ENOMEM, allocs := rest })

/-- `strncmp`, of strings without their NUL. -/
def strncmp : List Byte → List Byte → Nat → Int
  | _, _, 0 => 0
  | a, b, n + 1 =>
    let x := a.headD 0
    let y := b.headD 0
    if x ≠ y then x.toNat - y.toNat else if x = 0 then 0 else strncmp a.tail b.tail n

/-- The distance of `strchr(s, c)` from `s`. -/
def strchr (s : CString) (c : Byte) : Option Nat := s.chars.idxOf? c

namespace CString

/-- The part of a string that is a sublist of its characters. -/
def part (s : CString) (cs : List Byte) (h : cs.Sublist s.chars) : CString := ⟨cs, fun h0 => s.noNul (h.subset h0)⟩

end CString

/-- `strtok_r` with the delimiters `","`: the token, and what is left. -/
def strtok (s : CString) : Option (CString × CString) :=
  let start := s.chars.dropWhile (· == COMMA)
  if start = [] then none
  else some (s.part (start.takeWhile (· != COMMA)) ((List.takeWhile_sublist _).trans (List.dropWhile_sublist _)),
    s.part (start.dropWhile (· != COMMA)).tail
      ((List.tail_sublist _).trans ((List.dropWhile_sublist _).trans (List.dropWhile_sublist _))))

/-! ## The list -/

structure Envlist where
  entries : List CString
  elCount : Nat

def envlistCreate (c : Libc) : Option Envlist × Libc :=
  match c.alloc with
  | (false, c) => (none, c)
  | (true, c) => (some { entries := [], elCount := 0 }, c)

/-- The loop that both functions look for an entry with, `strncmp(entry->ev_var, env, envname_len) == 0`. -/
def sameName (env : CString) (envnameLen : Nat) (entry : CString) : Bool := strncmp entry.chars env.chars envnameLen == 0

def envlistSetenv (l : Envlist) (env : Option CString) (c : Libc) : Word × Envlist × Libc :=
  match env with
  | none => (EINVAL, l, c)
  | some env =>
    match strchr env EQUALS with
    | none => (EINVAL, l, c)
    | some eqSign =>
      let envnameLen := eqSign + 1
      let l := if l.entries.any (sameName env envnameLen) then { l with entries := l.entries.eraseP (sameName env envnameLen) }
        else { l with elCount := l.elCount + 1 }
      match c.alloc with
      | (false, c) => (c.errno, l, c)
      | (true, c) =>
        match c.alloc with
        | (false, c) => (c.errno, l, c)
        | (true, c) => (0, { l with entries := env :: l.entries }, c)

def envlistUnsetenv (l : Envlist) (env : Option CString) (c : Libc) : Word × Envlist × Libc :=
  match env with
  | none => (EINVAL, l, c)
  | some env =>
    match strchr env EQUALS with
    | some _ => (EINVAL, l, c)
    | none =>
      let envnameLen := env.chars.length
      if l.entries.any (sameName env envnameLen) then
        (0, { entries := l.entries.eraseP (sameName env envnameLen), elCount := l.elCount - 1 }, c)
      else (0, l, c)

/-! ## Comma separated lists -/

abbrev EnvlistCallback := Envlist → Option CString → Libc → Word × Envlist × Libc

theorem strtok_shorter {s tok rest : CString} (h : strtok s = some (tok, rest)) : rest.chars.length < s.chars.length := by
  unfold strtok at h
  dsimp only at h
  split at h
  · cases h
  · rename_i hne
    cases h
    have hdrop := (List.dropWhile_sublist (l := s.chars) (· == COMMA)).length_le
    have hdrop' := (List.dropWhile_sublist (l := s.chars.dropWhile (· == COMMA)) (· != COMMA)).length_le
    have hpos := List.length_pos_of_ne_nil hne
    unfold CString.part
    rw [List.length_tail]
    omega

/-- The loop of `envlist_parse` over the tokens. -/
def parseTokens (callback : EnvlistCallback) (s : CString) (l : Envlist) (c : Libc) : Word × Envlist × Libc :=
  match _h : strtok s with
  | none => (0, l, c)
  | some (envvar, rest) =>
    match callback l (some envvar) c with
    | (r, l, c) => if r ≠ 0 then (c.errno, l, c) else parseTokens callback rest l c
termination_by s.chars.length
decreasing_by exact strtok_shorter _h

def envlistParse (callback : EnvlistCallback) (l : Envlist) (env : Option CString) (c : Libc) : Word × Envlist × Libc :=
  match env with
  | none => (EINVAL, l, c)
  | some env =>
    match c.alloc with
    | (false, c) => (c.errno, l, c)
    | (true, c) => parseTokens callback env l c

def envlistParseSet : Envlist → Option CString → Libc → Word × Envlist × Libc := envlistParse envlistSetenv

def envlistParseUnset : Envlist → Option CString → Libc → Word × Envlist × Libc := envlistParse envlistUnsetenv

/-! ## The array -/

/-- The copies of the entries; `strdup` returns NULL where it fails. -/
def dupEntries : List CString → Libc → List (Option CString) × Libc
  | [], c => ([], c)
  | e :: es, c =>
    let (ok, c) := c.alloc
    let (env, c) := dupEntries es c
    ((if ok then some e else none) :: env, c)

/-- The array, up to its NULL, and `*count`. -/
def envlistToEnviron (l : Envlist) (c : Libc) : Result (Option (List (Option CString) × Nat) × Libc) :=
  match c.alloc with
  | (false, c) => .ok (none, c)
  | (true, c) =>
    let (env, c) := dupEntries l.entries c
    if env.length < l.elCount + 1 then .ok (some (env ++ [none], l.elCount), c) else .error .outOfBounds

end Unitrans
