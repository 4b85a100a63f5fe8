/-
Hash chains threaded through an append-only table: `heads` leads from a hash
to the latest entry with that hash, `next` from an entry to the one before it.
The walk along a chain answers the latest entry with a given key.
-/
import Mathlib.Data.List.Induction
import Mathlib.Logic.Function.Basic
import Mathlib.Order.Nat

namespace HashChain

variable {α κ η : Type _}

/-- The last index of `l` whose entry satisfies `p`. -/
def latest (p : α → Bool) (l : List α) : Option Nat := (l.reverse.findIdx? p).map (l.length - 1 - ·)

@[simp] theorem latest_nil (p : α → Bool) : latest p [] = none := rfl

theorem latest_append_singleton (p : α → Bool) (l : List α) (a : α) :
    latest p (l ++ [a]) = if p a then some l.length else latest p l := by
  simp only [latest, List.reverse_append, List.reverse_cons, List.reverse_nil, List.nil_append,
    List.singleton_append, List.findIdx?_cons, List.length_append, List.length_singleton]
  split
  · simp
  · rw [Option.map_map]
    congr 1
    funext i
    simp only [Function.comp_apply]
    omega

theorem latest_congr {p q : α → Bool} {l : List α} (h : ∀ a ∈ l, p a = q a) : latest p l = latest q l := by
  induction l using List.reverseRecOn with
  | nil => rfl
  | append_singleton l a ih =>
    rw [latest_append_singleton, latest_append_singleton, h a (by simp), ih fun b hb => h b (by simp [hb])]

theorem latest_eq_none {p : α → Bool} {l : List α} : latest p l = none ↔ ∀ a ∈ l, p a = false := by
  simp [latest]

theorem latest_eq_some {p : α → Bool} {l : List α} {i : Nat} (h : latest p l = some i) :
    ∃ a, l[i]? = some a ∧ p a = true := by
  induction l using List.reverseRecOn with
  | nil => simp at h
  | append_singleton l a ih =>
    rw [latest_append_singleton] at h
    split at h
    · obtain rfl := Option.some.inj h
      exact ⟨a, by simp, by assumption⟩
    · obtain ⟨b, hb, hp⟩ := ih h
      exact ⟨b, by rw [List.getElem?_append_left (List.getElem?_eq_some_iff.mp hb).1, hb], hp⟩

/-- Where no two entries satisfy `p`, one that does is the latest. -/
theorem latest_of_unique {p : α → Bool} {l : List α} {i : Nat} {a : α} (ha : l[i]? = some a) (hp : p a = true)
    (hu : ∀ j b, l[j]? = some b → p b = true → j = i) : latest p l = some i := by
  cases hl : latest p l with
  | none =>
    have := latest_eq_none.mp hl a (List.mem_of_getElem? ha)
    rw [hp] at this
    cases this
  | some j =>
    obtain ⟨b, hb, hpb⟩ := latest_eq_some hl
    rw [hu j b hb hpb]

/-- The walk from entry to entry until the key matches; `none` when `fuel`
entries were not enough, or a link leads nowhere. -/
def walk [DecidableEq κ] (key : α → κ) (next : α → Option Nat) (l : List α) (k : κ) :
    Nat → Option Nat → Option (Option Nat)
  | _, none => some none
  | 0, some _ => none
  | fuel + 1, some i =>
    match l[i]? with
    | none => none
    | some a => if key a = k then some (some i) else walk key next l k fuel (next a)

/-- `heads` and `next` thread one chain per hash through `l`. -/
structure Chained [DecidableEq η] (hash : κ → η) (key : α → κ) (next : α → Option Nat)
    (heads : η → Option Nat) (l : List α) : Prop where
  heads_eq : ∀ h, heads h = latest (fun a => hash (key a) = h) l
  next_eq : ∀ i a, l[i]? = some a → next a = latest (fun b => hash (key b) = hash (key a)) (l.take i)

variable [DecidableEq η] {hash : κ → η} {key : α → κ} {next : α → Option Nat}
  {heads : η → Option Nat} {l : List α}

theorem walk_take [DecidableEq κ] (hc : Chained hash key next heads l) (k : κ) :
    ∀ (n fuel : Nat), n ≤ l.length → n ≤ fuel →
      walk key next l k fuel (latest (fun a => hash (key a) = hash k) (l.take n)) =
        some (latest (fun a => key a = k) (l.take n))
  | 0, fuel, _, _ => by cases fuel <;> simp [walk]
  | n + 1, fuel, hn, hf => by
    have hget : l[n]? = some l[n] := List.getElem?_eq_getElem (by omega)
    have htake : (l.take n).length = n := List.length_take_of_le (by omega)
    rw [List.take_add_one, hget, Option.toList_some, latest_append_singleton, latest_append_singleton, htake]
    by_cases hh : hash (key l[n]) = hash k
    · rw [if_pos (by simpa using hh)]
      obtain ⟨fuel, rfl⟩ : ∃ f, fuel = f + 1 := ⟨fuel - 1, by omega⟩
      simp only [walk, hget]
      by_cases hk : key l[n] = k
      · simp [hk]
      · rw [if_neg hk, if_neg (by simpa using hk), hc.next_eq n _ hget, hh]
        exact walk_take hc k n fuel (by omega) (by omega)
    · have hk : key l[n] ≠ k := fun h => hh (by rw [h])
      rw [if_neg (by simpa using hh), if_neg (by simpa using hk)]
      exact walk_take hc k n fuel (by omega) (by omega)

theorem walk_heads [DecidableEq κ] (hc : Chained hash key next heads l) (k : κ) :
    walk key next l k l.length (heads (hash k)) = some (latest (fun a => key a = k) l) := by
  have h := walk_take hc k l.length l.length le_rfl le_rfl
  rwa [List.take_length, ← hc.heads_eq] at h

theorem chained_nil : Chained hash key next (fun _ => none) [] :=
  ⟨fun _ => rfl, fun _ _ h => by simp at h⟩

/-- Prepending the new entry to its chain. -/
theorem Chained.append (hc : Chained hash key next heads l) {a : α}
    (ha : next a = heads (hash (key a))) :
    Chained hash key next (Function.update heads (hash (key a)) (some l.length)) (l ++ [a]) := by
  refine ⟨fun h => ?_, fun i b hb => ?_⟩
  · rw [latest_append_singleton, ← hc.heads_eq]
    by_cases he : hash (key a) = h
    · subst he
      simp
    · rw [Function.update_of_ne (Ne.symm he), if_neg (by simpa using he)]
  · rcases Nat.lt_or_ge i l.length with hi | hi
    · rw [List.getElem?_append_left hi] at hb
      rw [List.take_append_of_le_length hi.le]
      exact hc.next_eq i b hb
    · rw [List.getElem?_append_right hi, List.getElem?_eq_some_iff] at hb
      obtain ⟨hlt, rfl⟩ := hb
      obtain rfl : i = l.length := by simp at hlt; omega
      simp only [Nat.sub_self, List.getElem_cons_zero, List.take_left', ha]
      exact hc.heads_eq _

end HashChain
