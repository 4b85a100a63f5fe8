/-
`mmap_find_vma_reserved`: two passes over the host pages, from the address asked for and then from the second page on,
find the first free range that ends below `RESERVED_VA`, or there is none (`mmapFindVmaReserved_first_fit`). A host page
is taken to be free by the flags of its first page of the guest's.
-/
import Unitrans.Library.FirstFit
import Unitrans.Mmap
import Unitrans.PageFlags
import Unitrans.SegmentImage

namespace Unitrans

open X86 FirstFit

variable (h : HostPages) (c : Settings) (m : L1Map) (size : Word)

/-- The address of a host page. -/
def HostPages.addr (i : Nat) : Word := BitVec.ofNat 32 (2 ^ h.bits * i)

/-- The host page has flags, as far as the search looks. -/
def UsedAt (i : Nat) : Prop := pageGetFlags m (h.addr i) ≠ 0

instance : DecidablePred (UsedAt h m) := fun i => inferInstanceAs (Decidable (pageGetFlags m (h.addr i) ≠ 0))

/-- A range of that size from the host page on ends below `RESERVED_VA`. -/
def RoomAt (i : Nat) : Prop := 2 ^ h.bits * i + size.toNat < c.reservedVa.toNat

instance : DecidablePred (RoomAt h c size) := fun i => inferInstanceAs (Decidable (2 ^ h.bits * i + size.toNat < c.reservedVa.toNat))

/-- A range of that size is free at the address. -/
structure Vacant (a : Word) : Prop where
  aligned : a.toNat % 2 ^ h.bits = 0
  below : a.toNat + size.toNat < c.reservedVa.toNat
  free : ∀ i, 2 ^ h.bits * i < size.toNat → pageGetFlags m (a + h.addr i) = 0

variable {h c m size}

namespace HostPages

theorem toNat_addr {i : Nat} (hi : 2 ^ h.bits * i < 2 ^ 32) : (h.addr i).toNat = 2 ^ h.bits * i := by
  rw [addr, BitVec.toNat_ofNat, Nat.mod_eq_of_lt hi]

theorem addr_add (i j : Nat) : h.addr i + h.addr j = h.addr (i + j) := by
  rw [addr, addr, addr, ← BitVec.ofNat_add, Nat.mul_add]

theorem size_eq : h.size = h.addr 1 := by
  apply BitVec.eq_of_toNat_eq
  have hpow := h.pow_lt
  rw [h.toNat_size, toNat_addr (by omega), Nat.mul_one]

/-- An aligned address is that of a host page. -/
theorem exists_addr {a : Word} (ha : a.toNat % 2 ^ h.bits = 0) : ∃ i, a = h.addr i ∧ a.toNat = 2 ^ h.bits * i := by
  obtain ⟨i, hi⟩ := Nat.dvd_of_mod_eq_zero ha
  refine ⟨i, ?_, hi⟩
  rw [addr, ← hi, BitVec.ofNat_toNat, BitVec.setWidth_eq]

end HostPages

/-! ## The loop -/

/-- Where the loop is, in host pages. -/
structure InSearch (h : HostPages) (c : Settings) (size : Word) (n last addr : Nat) : Prop where
  size_eq : size.toNat = 2 ^ h.bits * n
  pos : 0 < n
  last_le : last ≤ addr
  le_last : addr ≤ last + n
  lt : 2 ^ h.bits * last < 2 ^ 32
  room : last < addr → RoomAt h c size last

variable {n last addr : Nat}

/-- The sum of words is that of numbers, up to where there is room. -/
theorem InSearch.end_ (hs : InSearch h c size n last addr) :
    (h.addr last + size = h.addr addr ↔ last + n = addr) ∧
      ((c.reservedVa ≤ h.addr last + size ∨ h.addr last + size < h.addr last) ↔ ¬ RoomAt h c size last) := by
  have hpos := Nat.two_pow_pos h.bits
  have hR := c.reservedVa.isLt
  have hsz := size.isLt
  have hsize := hs.size_eq
  have hlast := HostPages.toNat_addr hs.lt
  have hn := Nat.mul_pos hpos hs.pos
  have hsum : (h.addr last + size).toNat = (2 ^ h.bits * last + 2 ^ h.bits * n) % 2 ^ 32 := by
    rw [BitVec.toNat_add, hlast, hsize]
  constructor
  · rw [← BitVec.toNat_inj, hsum]
    rcases Nat.eq_or_lt_of_le hs.last_le with heq | hlt
    · have hne := hs.pos
      rw [← heq, hlast]
      refine iff_of_false (fun he => ?_) (by omega)
      rcases Nat.lt_or_ge (2 ^ h.bits * last + 2 ^ h.bits * n) (2 ^ 32) with h₁ | h₁
      · rw [Nat.mod_eq_of_lt h₁] at he
        omega
      · rw [Nat.mod_eq_sub_mod h₁, Nat.mod_eq_of_lt (by omega)] at he
        omega
    · have hroom : 2 ^ h.bits * last + size.toNat < c.reservedVa.toNat := hs.room hlt
      have hmul := Nat.mul_le_mul_left (2 ^ h.bits) hs.le_last
      rw [Nat.mul_add] at hmul
      rw [Nat.mod_eq_of_lt (by omega), HostPages.toNat_addr (by omega), ← Nat.mul_add]
      exact ⟨fun he => Nat.eq_of_mul_eq_mul_left hpos he, fun he => by rw [he]⟩
  · rw [BitVec.le_def, BitVec.lt_def, hsum, hlast, RoomAt, hsize]
    rcases Nat.lt_or_ge (2 ^ h.bits * last + 2 ^ h.bits * n) (2 ^ 32) with h₁ | h₁
    · rw [Nat.mod_eq_of_lt h₁]
      omega
    · rw [Nat.mod_eq_sub_mod h₁, Nat.mod_eq_of_lt (by omega)]
      omega

theorem InSearch.next (hs : InSearch h c size n last addr) (hne : last + n ≠ addr) (hroom : RoomAt h c size last) :
    InSearch h c size n (if UsedAt h m addr then addr + 1 else last) (addr + 1) := by
  have hle := hs.le_last
  have hR := c.reservedVa.isLt
  have hr : 2 ^ h.bits * last + size.toNat < c.reservedVa.toNat := hroom
  have hsize := hs.size_eq
  have hmul := Nat.mul_le_mul_left (2 ^ h.bits) (show addr + 1 ≤ last + n by omega)
  rw [Nat.mul_add _ last n] at hmul
  split
  · exact ⟨hs.size_eq, hs.pos, Nat.le_refl _, Nat.le_add_right .., by omega, fun h => by omega⟩
  · have := hs.last_le
    exact ⟨hs.size_eq, hs.pos, by omega, by omega, hs.lt, fun _ => hroom⟩

/-- One step of the loop. -/
theorem findVmaReserved_step (hs : InSearch h c size n last addr) (fuel : Nat) (looped : Bool) :
    Vm.findVmaReserved h c m size (fuel + 1) (h.addr last) (h.addr addr) looped =
      if last + n = addr then .ok (some (h.addr last, h.addr addr))
      else if ¬ RoomAt h c size last then
        if looped then .ok none else Vm.findVmaReserved h c m size fuel (h.addr 1) (h.addr 1) true
      else Vm.findVmaReserved h c m size fuel (h.addr (if UsedAt h m addr then addr + 1 else last)) (h.addr (addr + 1)) looped := by
  obtain ⟨hend, hroom⟩ := hs.end_
  have hzero : (0 : Word) + h.size = h.addr 1 := by rw [zero_add, HostPages.size_eq]
  have hadd : ∀ i, h.addr i + h.size = h.addr (i + 1) := fun i => by rw [HostPages.size_eq, HostPages.addr_add]
  have hlast : (if pageGetFlags m (h.addr addr) ≠ 0 then h.addr addr + h.size else h.addr last) =
      h.addr (if UsedAt h m addr then addr + 1 else last) := by
    rw [hadd]
    have hused : pageGetFlags m (h.addr addr) ≠ 0 ↔ UsedAt h m addr := Iff.rfl
    by_cases hu : UsedAt h m addr
    · rw [if_pos (hused.mpr hu), if_pos hu]
    · rw [if_neg (hused.not.mpr hu), if_neg hu]
  rw [Vm.findVmaReserved, hzero, hlast, hadd, HostPages.size_eq]
  exact if_congr hend rfl (if_congr hroom rfl rfl)

/-- The second pass. -/
theorem findVmaReserved_looped : ∀ (fuel : Nat) {last addr : Nat}, InSearch h c size n last addr → 0 < fuel →
    (∀ r, RoomAt h c size r → r + n < addr + fuel) →
      Vm.findVmaReserved h c m size fuel (h.addr last) (h.addr addr) true =
        .ok ((scan (UsedAt h m) (RoomAt h c size) n fuel last addr).map fun r => (h.addr r, h.addr (r + n))) := by
  intro fuel
  induction fuel with
  | zero => intro last addr _ h0; exact absurd h0 (by omega)
  | succ fuel ih =>
    intro last addr hs _ hfuel
    rw [findVmaReserved_step hs, scan]
    by_cases hend : last + n = addr
    · rw [if_pos hend, if_pos hend, ← hend]
      rfl
    rw [if_neg hend, if_neg hend]
    by_cases hroom : RoomAt h c size last
    · rw [if_neg (not_not.mpr hroom), if_neg (not_not.mpr hroom)]
      have hbound := hfuel last hroom
      have hle := hs.le_last
      exact ih (hs.next hend hroom) (by omega) fun r hr => by have := hfuel r hr; omega
    · rw [if_pos hroom, if_pos hroom]
      rfl

/-- The first pass, and what is left for the second. -/
theorem findVmaReserved_first (rest : Nat) : ∀ (fuel : Nat) {last addr : Nat}, InSearch h c size n last addr → 0 < fuel →
    (∀ r, RoomAt h c size r → r + n < addr + fuel) → ∃ left, rest ≤ left ∧
      Vm.findVmaReserved h c m size (fuel + rest) (h.addr last) (h.addr addr) false =
        (scan (UsedAt h m) (RoomAt h c size) n fuel last addr).elim (Vm.findVmaReserved h c m size left (h.addr 1) (h.addr 1) true)
          fun r => .ok (some (h.addr r, h.addr (r + n))) := by
  intro fuel
  induction fuel with
  | zero => intro last addr _ h0; exact absurd h0 (by omega)
  | succ fuel ih =>
    intro last addr hs _ hfuel
    have hsucc : fuel + 1 + rest = fuel + rest + 1 := by omega
    rw [hsucc, findVmaReserved_step hs, scan]
    by_cases hend : last + n = addr
    · refine ⟨rest, Nat.le_refl _, ?_⟩
      rw [if_pos hend, if_pos hend, ← hend]
      rfl
    rw [if_neg hend, if_neg hend]
    by_cases hroom : RoomAt h c size last
    · rw [if_neg (not_not.mpr hroom), if_neg (not_not.mpr hroom)]
      have hbound := hfuel last hroom
      have hle := hs.le_last
      exact ih (hs.next hend hroom) (by omega) fun r hr => by have := hfuel r hr; omega
    · refine ⟨fuel + rest, by omega, ?_⟩
      rw [if_pos hroom, if_pos hroom]
      rfl

/-! ## What is found -/

/-- A free range, at its address. -/
theorem vacant_addr (hsize : size.toNat = 2 ^ h.bits * n) {r : Nat} (hr : 2 ^ h.bits * r < 2 ^ 32) :
    Vacant h c m size (h.addr r) ↔ RoomAt h c size r ∧ Free (UsedAt h m) n r := by
  have hpos := Nat.two_pow_pos h.bits
  have hval := HostPages.toNat_addr hr
  constructor
  · intro hv
    refine ⟨?_, fun i h₁ h₂ hu => hu ?_⟩
    · have hbelow := hv.below
      rwa [hval] at hbelow
    · have hfree := hv.free (i - r) (by rw [hsize]; exact Nat.mul_lt_mul_of_pos_left (by omega) hpos)
      rwa [HostPages.addr_add, Nat.add_sub_cancel' h₁] at hfree
  · intro hv
    obtain ⟨hroom, hfree⟩ := hv
    refine ⟨by rw [hval, Nat.mul_mod_right], by rw [hval]; exact hroom, fun i hi => ?_⟩
    rw [hsize] at hi
    have hlt := Nat.lt_of_mul_lt_mul_left hi
    rw [HostPages.addr_add]
    exact not_not.mp (hfree (r + i) (by omega) (by omega))

/-- The first free range from an address on. -/
structure FirstVacant (h : HostPages) (c : Settings) (m : L1Map) (size first r : Word) : Prop where
  le : first ≤ r
  vacant : Vacant h c m size r
  least : ∀ a, first ≤ a → a < r → ¬ Vacant h c m size a

variable {first r : Nat}

theorem RoomAt.lt (hr : RoomAt h c size r) : 2 ^ h.bits * r < 2 ^ 32 := by
  have hR := c.reservedVa.isLt
  have hlt : 2 ^ h.bits * r + size.toNat < c.reservedVa.toNat := hr
  omega

theorem RoomAt.mono {q : Nat} (hle : q ≤ r) (hr : RoomAt h c size r) : RoomAt h c size q := by
  have hmul := Nat.mul_le_mul_left (2 ^ h.bits) hle
  have hlt : 2 ^ h.bits * r + size.toNat < c.reservedVa.toNat := hr
  show 2 ^ h.bits * q + size.toNat < _
  omega

/-- The search in host pages is that for addresses. -/
theorem not_vacant (hsize : size.toNat = 2 ^ h.bits * n) (hfirst : 2 ^ h.bits * first < 2 ^ 32)
    (hno : NoRow (UsedAt h m) (RoomAt h c size) n first) (a : Word) (ha : h.addr first ≤ a) : ¬ Vacant h c m size a := by
  intro hv
  obtain ⟨q, rfl, hq⟩ := HostPages.exists_addr hv.aligned
  have hlt := (h.addr q).isLt
  rw [BitVec.le_def, HostPages.toNat_addr hfirst, hq] at ha
  obtain ⟨hroom, hfree⟩ := (vacant_addr hsize (by omega)).mp hv
  exact hno q (Nat.le_of_mul_le_mul_left ha (Nat.two_pow_pos h.bits)) hroom hfree

theorem firstVacant (hsize : size.toNat = 2 ^ h.bits * n) (hfirst : 2 ^ h.bits * first < 2 ^ 32)
    (hr : First (UsedAt h m) (RoomAt h c size) n first r) : FirstVacant h c m size (h.addr first) (h.addr r) := by
  obtain ⟨hle, hroom, hfree, hleast⟩ := hr
  have hpos := Nat.two_pow_pos h.bits
  have hval := HostPages.toNat_addr hroom.lt
  refine ⟨?_, (vacant_addr hsize hroom.lt).mpr ⟨hroom, hfree⟩, fun a h₁ h₂ hv => ?_⟩
  · rw [BitVec.le_def, HostPages.toNat_addr hfirst, hval]
    exact Nat.mul_le_mul_left _ hle
  · obtain ⟨q, rfl, hq⟩ := HostPages.exists_addr hv.aligned
    have hlt := (h.addr q).isLt
    rw [BitVec.le_def, HostPages.toNat_addr hfirst, hq] at h₁
    rw [BitVec.lt_def, hval, hq] at h₂
    exact hleast q (Nat.le_of_mul_le_mul_left h₁ hpos) (Nat.lt_of_mul_lt_mul_left h₂) ((vacant_addr hsize (by omega)).mp hv).2

/-- What the search finds, in host pages: the first row from `l` on; or the first from the second page on; or none. -/
theorem mmapFindVmaReserved_found (s : Vm) (hsize : size.toNat = 2 ^ h.bits * n) (hn : 0 < n) {l : Nat} (hl : 2 ^ h.bits * l < 2 ^ 32) :
    (∃ r, First (UsedAt h s.pages) (RoomAt h c size) n l r ∧
      s.mmapFindVmaReserved h c (h.addr l) size = .ok (h.addr r, { s with mmapNextStart := h.addr (r + n) })) ∨
    NoRow (UsedAt h s.pages) (RoomAt h c size) n l ∧
      ((∃ r, First (UsedAt h s.pages) (RoomAt h c size) n 1 r ∧
        s.mmapFindVmaReserved h c (h.addr l) size = .ok (h.addr r, { s with mmapNextStart := h.addr (r + n) })) ∨
      NoRow (UsedAt h s.pages) (RoomAt h c size) n 1 ∧ s.mmapFindVmaReserved h c (h.addr l) size = .ok (-1, s)) := by
  have hpow := h.pow_lt
  have hbits : 2 ^ 12 ≤ 2 ^ h.bits := Nat.pow_le_pow_right (by decide) h.target_le
  have hmono : ∀ q r, q ≤ r → RoomAt h c size r → RoomAt h c size q := fun q r hqr hr => hr.mono hqr
  -- two passes of that length are enough
  have hfuel : ∀ r, RoomAt h c size r → r + n < 2 ^ 20 := fun r hr => by
    have hR := c.reservedVa.isLt
    have hlt : 2 ^ h.bits * r + size.toNat < c.reservedVa.toNat := hr
    rw [hsize, ← Nat.mul_add] at hlt
    have hmul := Nat.mul_le_mul_right (r + n) hbits
    omega
  unfold Vm.mmapFindVmaReserved
  by_cases hbig : c.reservedVa < size
  · rw [if_pos hbig]
    have hno : ∀ first, NoRow (UsedAt h s.pages) (RoomAt h c size) n first := fun first r _ hr => by
      have hlt : 2 ^ h.bits * r + size.toNat < c.reservedVa.toNat := hr
      have hgt := BitVec.lt_def.mp hbig
      omega
    exact Or.inr ⟨hno l, Or.inr ⟨hno 1, rfl⟩⟩
  rw [if_neg hbig]
  obtain ⟨left, hleft, hfirst⟩ := findVmaReserved_first (m := s.pages) (2 ^ 21) (2 ^ 21)
    ⟨hsize, hn, Nat.le_refl l, Nat.le_add_right .., hl, fun h => by omega⟩ (by decide)
    (fun r (hr : RoomAt h c size r) => by have := hfuel r hr; omega)
  have hlooped := findVmaReserved_looped (m := s.pages) left
    ⟨hsize, hn, Nat.le_refl 1, Nat.le_add_right .., by omega, fun h => by omega⟩ (by omega)
    (fun r (hr : RoomAt h c size r) => by have := hfuel r hr; omega)
  have hscan₁ := scan_spec (UsedAt h s.pages) (RoomAt h c size) hn hmono (2 ^ 21) (At.start l) (by decide)
    (fun r hr => by have := hfuel r hr; omega)
  have hscan₂ := scan_spec (UsedAt h s.pages) (RoomAt h c size) hn hmono left (At.start 1) (by omega)
    (fun r hr => by have := hfuel r hr; omega)
  have htwo : 2 ^ 22 = 2 ^ 21 + 2 ^ 21 := by decide
  rw [htwo, hfirst]
  cases h₁ : scan (UsedAt h s.pages) (RoomAt h c size) n (2 ^ 21) l l with
  | some r =>
    rw [h₁] at hscan₁
    exact Or.inl ⟨r, hscan₁, rfl⟩
  | none =>
    rw [h₁] at hscan₁
    rw [Option.elim_none, hlooped]
    cases h₂ : scan (UsedAt h s.pages) (RoomAt h c size) n left 1 1 with
    | some r =>
      rw [h₂] at hscan₂
      exact Or.inr ⟨hscan₁, Or.inl ⟨r, hscan₂, rfl⟩⟩
    | none =>
      rw [h₂] at hscan₂
      exact Or.inr ⟨hscan₁, Or.inr ⟨hscan₂, rfl⟩⟩

/-- The search always ends. It finds the first free range from `start` on; or, if there is none, the first from the second
host page on; or else returns -1, and there is none from either on: a range that begins in the first host page is taken only
where `start` asks for it. Nothing but `mmap_next_start` changes. -/
theorem mmapFindVmaReserved_first_fit (h : HostPages) (c : Settings) (s : Vm) (start size : Word)
    (hstart : start.toNat % 2 ^ h.bits = 0) (hsize : size.toNat % 2 ^ h.bits = 0) (hpos : size ≠ 0) :
    ∃ r s', s.mmapFindVmaReserved h c start size = .ok (r, s') ∧ s'.pages = s.pages ∧ s'.host = s.host ∧
      (FirstVacant h c s.pages size start r ∧ s'.mmapNextStart = r + size ∨
        (∀ a, start ≤ a → ¬ Vacant h c s.pages size a) ∧
          (FirstVacant h c s.pages size h.size r ∧ s'.mmapNextStart = r + size ∨
            (∀ a, h.size ≤ a → ¬ Vacant h c s.pages size a) ∧ r = -1 ∧ s' = s)) := by
  obtain ⟨n, hn⟩ := Nat.dvd_of_mod_eq_zero hsize
  obtain ⟨l, rfl, hl⟩ := HostPages.exists_addr hstart
  have hpow := h.pow_lt
  have hn₀ : 0 < n := by
    rcases Nat.eq_zero_or_pos n with rfl | hn₀
    · exact absurd (BitVec.eq_of_toNat_eq (by rw [hn]; rfl)) hpos
    · exact hn₀
  have hl₀ : 2 ^ h.bits * l < 2 ^ 32 := by
    rw [← hl]
    exact BitVec.isLt _
  have hone : 2 ^ h.bits * 1 < 2 ^ 32 := by omega
  have hend : ∀ r, h.addr (r + n) = h.addr r + size := fun r => by
    have hsz : size = h.addr n := by rw [HostPages.addr, ← hn, BitVec.ofNat_toNat, BitVec.setWidth_eq]
    rw [hsz, HostPages.addr_add]
  rw [HostPages.size_eq]
  rcases mmapFindVmaReserved_found (c := c) s hn hn₀ hl₀ with ⟨r, hfirst, hs⟩ | ⟨hno, ⟨r, hfirst, hs⟩ | ⟨hno', hs⟩⟩
  · exact ⟨h.addr r, _, hs, rfl, rfl, Or.inl ⟨firstVacant hn hl₀ hfirst, hend r⟩⟩
  · exact ⟨h.addr r, _, hs, rfl, rfl, Or.inr ⟨not_vacant hn hl₀ hno, Or.inl ⟨firstVacant hn hone hfirst, hend r⟩⟩⟩
  · exact ⟨-1, s, hs, rfl, rfl, Or.inr ⟨not_vacant hn hl₀ hno, Or.inr ⟨not_vacant hn hone hno', rfl, rfl⟩⟩⟩

/-- A table with one page in use. -/
theorem exists_onePage : ∃ m, NoBlocks m ∧ ∀ a, pageGetFlags m a = if pageIndex a = 0x40002 then PAGE_READ ||| PAGE_VALID else 0 := by
  have hlt : (0x40002000 : Word) < 0x40003000 := by decide
  have hno : NoBlocks noPages := fun k _ => by rw [page_noPages]
  obtain ⟨m, -, hblocks, hflags⟩ := pageSetFlags_spec hno hlt (PAGE_READ ||| PAGE_VALID)
  refine ⟨m, hblocks, fun a => ?_⟩
  rw [pageGetFlags_eq, hflags _ (pageIndex_lt a), L1Map.flags, page_noPages]
  have hfirst : firstPage 0x40002000 = 0x40002 ∧ lastPage 0x40003000 = 0x40002 := by decide
  have hwhole : ¬ WholeSpace 0x40002000 0x40003000 := by decide
  rw [hfirst.1, hfirst.2]
  exact if_congr ⟨fun h => by omega, fun h => ⟨hwhole, by omega⟩⟩ rfl rfl

/-- With one page in use the range behind it is taken; from the end of the reserved space on the search begins again at the
second host page; and a range so long that it cannot avoid the page is not there. -/
theorem mmapFindVmaReserved_first_fit_sample : ∃ (h : HostPages) (c : Settings) (s s₁ s₂ : Vm),
    pageGetFlags s.pages 0x40002000 ≠ 0 ∧ s.mmapFindVmaReserved h c 0x40000000 0x6000 = .ok (0x40004000, s₁) ∧
      s.mmapFindVmaReserved h c 0x7fffc000 0x6000 = .ok (h.size, s₂) ∧
      s.mmapFindVmaReserved h c 0x40000000 0x70000000 = .ok (-1, s) := by
  obtain ⟨m, -, hflags⟩ := exists_onePage
  obtain ⟨h, hh⟩ : ∃ h : HostPages, h = ⟨13, by decide, by decide⟩ := ⟨_, rfl⟩
  obtain ⟨c, hc⟩ : ∃ c : Settings, c = ⟨0x80000000, 0x10000⟩ := ⟨_, rfl⟩
  have hbits : 2 ^ h.bits = 8192 := by rw [hh]; rfl
  have hR : c.reservedVa.toNat = 0x80000000 := by rw [hc]; rfl
  have hsize : h.size = 0x2000 := by rw [hh]; rfl
  have hused : pageGetFlags m 0x40002000 ≠ 0 := by
    rw [hflags]
    decide
  -- a range over the page is not free, and one of three host pages off it is
  have hover : ∀ {size a : Word}, a.toNat ≤ 0x40002000 → 0x40002000 < a.toNat + size.toNat → ¬ Vacant h c m size a := by
    intro size a hle hlt hv
    obtain ⟨q, rfl, hq⟩ := HostPages.exists_addr hv.aligned
    rw [hbits] at hq
    have hfree := hv.free (0x20001 - q) (by rw [hbits]; omega)
    rw [HostPages.addr_add, Nat.add_sub_cancel' (by omega)] at hfree
    have haddr : h.addr 0x20001 = 0x40002000 := by rw [hh]; rfl
    exact hused (haddr ▸ hfree)
  have hoff : ∀ a : Word, a.toNat % 8192 = 0 → a.toNat + 0x6000 < 0x80000000 → (0x40002000 < a.toNat ∨ a.toNat + 0x6000 ≤ 0x40002000) →
      Vacant h c m 0x6000 a := by
    intro a hal hroom hout
    have hlen : (0x6000 : Word).toNat = 0x6000 := rfl
    refine ⟨by rw [hbits]; exact hal, by rw [hR, hlen]; exact hroom, fun i hi => ?_⟩
    rw [hlen] at hi
    have haddr := HostPages.toNat_addr (h := h) (i := i) (by omega)
    rw [hflags, pageIndex_eq, BitVec.toNat_add, Nat.mod_eq_of_lt (by omega), if_neg (by omega)]
  refine ⟨h, c, ⟨m, fun _ => none, TASK_UNMAPPED_BASE⟩, ?_⟩
  obtain ⟨r₁, s₁, h₁, -, -, hfound₁⟩ := mmapFindVmaReserved_first_fit h c ⟨m, fun _ => none, TASK_UNMAPPED_BASE⟩ 0x40000000 0x6000
    (by rw [hbits]; decide) (by rw [hbits]; decide) (by decide)
  obtain ⟨r₂, s₂, h₂, -, -, hfound₂⟩ := mmapFindVmaReserved_first_fit h c ⟨m, fun _ => none, TASK_UNMAPPED_BASE⟩ 0x7fffc000 0x6000
    (by rw [hbits]; decide) (by rw [hbits]; decide) (by decide)
  obtain ⟨r₃, s₃, h₃, -, -, hfound₃⟩ := mmapFindVmaReserved_first_fit h c ⟨m, fun _ => none, TASK_UNMAPPED_BASE⟩ 0x40000000 0x70000000
    (by rw [hbits]; decide) (by rw [hbits]; decide) (by decide)
  have hlen : (0x6000 : Word).toNat = 0x6000 ∧ (0x70000000 : Word).toNat = 0x70000000 := ⟨rfl, rfl⟩
  refine ⟨s₁, s₂, hused, ?_, ?_, ?_⟩
  · have hbehind : Vacant h c m 0x6000 0x40004000 := hoff _ (by decide) (by decide) (by decide)
    rcases hfound₁ with ⟨hfirst, -⟩ | ⟨hno, -⟩
    · have hle : ¬ (0x40004000 : Word) < r₁ := fun hlt => hfirst.least _ (by decide) hlt hbehind
      have hr₁ : (0x40000000 : Word) ≤ r₁ := hfirst.le
      have hnot : ¬ r₁.toNat ≤ 0x40002000 := fun h => hover h (by rw [hlen.1]; bv_omega) hfirst.vacant
      have hal : r₁.toNat % 2 ^ h.bits = 0 := hfirst.vacant.aligned
      rw [hbits] at hal
      have heq : r₁ = 0x40004000 := by bv_omega
      rw [h₁, heq]
    · exact absurd hbehind (hno _ (by decide))
  · have hlow : Vacant h c m 0x6000 h.size := hoff _ (by rw [hsize]; decide) (by rw [hsize]; decide) (by rw [hsize]; decide)
    rcases hfound₂ with ⟨hfirst, -⟩ | ⟨-, ⟨hfirst, -⟩ | ⟨hno, -⟩⟩
    · have hle : (0x7fffc000 : Word) ≤ r₂ := hfirst.le
      have hbelow := hfirst.vacant.below
      rw [hR, hlen.1] at hbelow
      bv_omega
    · have hle : ¬ h.size < r₂ := fun hlt => hfirst.least _ (BitVec.le_refl _) hlt hlow
      have heq : r₂ = h.size := BitVec.le_antisymm (BitVec.not_lt.mp hle) hfirst.le
      rw [h₂, heq]
    · exact absurd hlow (hno _ (BitVec.le_refl _))
  · have hnone : ∀ a, h.size ≤ a → ¬ Vacant h c m 0x70000000 a := fun a ha hv => by
      have hbelow := hv.below
      rw [hR, hlen.2] at hbelow
      rw [hsize] at ha
      exact hover (by omega) (by rw [hlen.2]; bv_omega) hv
    rcases hfound₃ with ⟨hfirst, -⟩ | ⟨-, ⟨hfirst, -⟩ | ⟨-, hr, hs⟩⟩
    · exact absurd hfirst.vacant (hnone _ (BitVec.le_trans (by rw [hsize]; decide) hfirst.le))
    · exact absurd hfirst.vacant (hnone _ hfirst.le)
    · rw [h₃, hr, hs]

end Unitrans
