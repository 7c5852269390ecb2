import MinervaOS.Memory.Pmm

/-!
# The page tables

`paging.c` over a memory of pages, named by their physical addresses: the directory and the first
table are two of the kernel's own, the other tables come from the page allocator. `translate` is the
walk of the processor. Mapping a page changes the translation of that page and of no other
(`pagingMap_translate`), in every state that the two functions reach while everything else keeps off
the tables (`Reached`).
-/

namespace MinervaOS.Memory

def pagePresent : UInt32 := 1
def pageWritable : UInt32 := 2
def pageUser : UInt32 := 4

/-- The two arrays of `paging.c`, where the linker has put them. -/
structure Statics where
  pageDir : UInt32
  pageTable0 : UInt32
  pageDir_aligned : 4096 ∣ pageDir.toNat
  pageTable0_aligned : 4096 ∣ pageTable0.toNat
  apart : pageDir ≠ pageTable0

structure Machine where
  /-- The words of the page at an address. -/
  memory : UInt32 → ℕ → UInt32
  pmm : Pmm

namespace Machine

def setWord (s : Machine) (page : UInt32) (i : ℕ) (word : UInt32) : Machine :=
  { s with memory := Function.update s.memory page (Function.update (s.memory page) i word) }

/-- `memset(page, 0, 4096)` -/
def clear (s : Machine) (page : UInt32) : Machine :=
  { s with memory := Function.update s.memory page fun _ => 0 }

end Machine

/-! ## The functions -/

section

variable (st : Statics)

def pagingInit (s : Machine) : Machine :=
  let s := (List.range 1024).foldl (fun s i => s.setWord st.pageDir i 0) s
  let s := (List.range 1024).foldl (fun s i =>
    s.setWord st.pageTable0 i (UInt32.ofNat (i * 4096) ||| pagePresent ||| pageWritable)) s
  s.setWord st.pageDir 0 (st.pageTable0 ||| pagePresent ||| pageWritable)

def pdIndex (virt : UInt32) : ℕ := (virt >>> 22).toNat

def ptIndex (virt : UInt32) : ℕ := (virt >>> 12 &&& 0x3FF).toNat

/-- What `paging_map` does once the directory has a table for the page. -/
def mapInTable (s : Machine) (virt phys flags : UInt32) : Machine :=
  let pde := s.memory st.pageDir (pdIndex virt)
  let s := if flags &&& pageUser != 0 then s.setWord st.pageDir (pdIndex virt) (pde ||| pageUser)
    else s
  let pt := s.memory st.pageDir (pdIndex virt) &&& ~~~0xFFF
  s.setWord pt (ptIndex virt) (phys &&& ~~~0xFFF ||| flags &&& 0xFFF ||| pagePresent)

def pagingMap (s : Machine) (virt phys flags : UInt32) : Machine :=
  if s.memory st.pageDir (pdIndex virt) &&& pagePresent == 0 then
    let (pmm, newPt) := pmmAllocPage s.pmm
    let s := { s with pmm := pmm }
    if newPt == 0 then s
    else
      let s := s.clear newPt
      let s := s.setWord st.pageDir (pdIndex virt) (newPt ||| pagePresent ||| pageWritable)
      mapInTable st s virt phys flags
  else mapInTable st s virt phys flags

/-- The loop of `paging_map_range`, with a bound on its steps. -/
def mapRangeFrom (virt phys size flags : UInt32) : ℕ → UInt32 → Machine → Option Machine
  | 0, _, _ => none
  | fuel + 1, offset, s =>
    if offset < size then
      mapRangeFrom virt phys size flags fuel (offset + 4096)
        (pagingMap st s (virt + offset) (phys + offset) flags)
    else some s

def pagingMapRange (fuel : ℕ) (s : Machine) (virt phys size flags : UInt32) : Option Machine :=
  mapRangeFrom st virt phys size flags fuel 0 s

/-! ## The walk of the processor -/

/-- Where a page is, and who may do what there. -/
structure Mapping where
  frame : UInt32
  writable : Bool
  user : Bool
  deriving DecidableEq

def present (entry : UInt32) : Bool := entry &&& pagePresent != 0
def writable (entry : UInt32) : Bool := entry &&& pageWritable != 0
def user (entry : UInt32) : Bool := entry &&& pageUser != 0
def base (entry : UInt32) : UInt32 := entry &&& ~~~0xFFF

/-- A right holds where both entries give it. -/
def translate (s : Machine) (virt : UInt32) : Option Mapping :=
  let pde := s.memory st.pageDir (pdIndex virt)
  let pte := s.memory (base pde) (ptIndex virt)
  if present pde && present pte then
    some ⟨base pte, writable pde && writable pte, user pde && user pte⟩
  else none

end

/-! ## Bits of an entry -/

section Bits

variable (x y : UInt32)

theorem flag_or (flag : UInt32) :
    (((x ||| y) &&& flag) != 0) = ((x &&& flag != 0) || (y &&& flag != 0)) := by
  have hor : (x ||| y) &&& flag = x &&& flag ||| y &&& flag := by
    apply UInt32.toBitVec_inj.1
    exact BitVec.and_or_distrib_right
  rw [hor, Bool.eq_iff_iff, Bool.or_eq_true, bne_iff_ne, bne_iff_ne, bne_iff_ne, ne_eq,
    UInt32.or_eq_zero_iff, not_and_or]

/-- The flags of an entry are those of its low bits. -/
theorem flag_entry {flag : UInt32} (hflag : 0xFFF &&& flag = flag) (hhigh : ~~~0xFFF &&& flag = 0) :
    ((x &&& ~~~0xFFF ||| y &&& 0xFFF ||| pagePresent) &&& flag != 0)
      = ((y &&& flag != 0) || (pagePresent &&& flag != 0)) := by
  rw [flag_or, flag_or, UInt32.and_assoc, UInt32.and_assoc, hflag, hhigh, UInt32.and_zero]
  simp

theorem base_or : base (x ||| y) = base x ||| base y := by
  apply UInt32.toBitVec_inj.1
  exact BitVec.and_or_distrib_right

theorem base_entry : base (x &&& ~~~0xFFF ||| y &&& 0xFFF ||| pagePresent) = x &&& ~~~0xFFF := by
  have hlow : base (y &&& 0xFFF) = 0 := by
    unfold base
    rw [UInt32.and_assoc, show (0xFFF : UInt32) &&& ~~~0xFFF = 0 from rfl, UInt32.and_zero]
  have hhigh : base (x &&& ~~~0xFFF) = x &&& ~~~0xFFF := by
    unfold base
    rw [UInt32.and_assoc, UInt32.and_self]
  rw [base_or, base_or, hlow, hhigh, show base pagePresent = 0 from rfl, UInt32.or_zero,
    UInt32.or_zero]

variable {x y}

theorem base_toNat (x : UInt32) : (x &&& ~~~0xFFF).toNat = x.toNat / 4096 * 4096 := by
  have hshift : x.toBitVec &&& (BitVec.allOnes 32 <<< 12) = x.toBitVec >>> 12 <<< 12 :=
    BitVec.shiftLeft_ushiftRight.symm
  have hlt := x.toNat_lt
  show (x.toBitVec &&& (BitVec.allOnes 32 <<< 12)).toNat = _
  rw [hshift, BitVec.toNat_shiftLeft, BitVec.toNat_ushiftRight, Nat.shiftRight_eq_div_pow,
    Nat.shiftLeft_eq, UInt32.toNat_toBitVec]
  omega

theorem base_of_dvd (hx : 4096 ∣ x.toNat) : base x = x := by
  apply UInt32.toNat_inj.1
  unfold base
  rw [base_toNat]
  exact Nat.div_mul_cancel hx

/-- The entry of a table at an aligned address. -/
theorem base_table (hx : 4096 ∣ x.toNat) :
    base (x ||| pagePresent ||| pageWritable) = x := by
  rw [base_or, base_or, base_of_dvd hx, show base pagePresent = 0 from rfl,
    show base pageWritable = 0 from rfl, UInt32.or_zero, UInt32.or_zero]

theorem address_dvd (p : Page) : 4096 ∣ (address p).toNat := by
  rw [address_toNat]
  exact Nat.dvd_mul_left _ _

theorem user_table (hx : 4096 ∣ x.toNat) :
    user (x ||| pagePresent ||| pageWritable) = false := by
  have hlow : x &&& pageUser = 0 := by
    rw [← base_of_dvd hx, base, UInt32.and_assoc, show ~~~0xFFF &&& pageUser = 0 from rfl,
      UInt32.and_zero]
  unfold user
  rw [flag_or, flag_or, hlow]
  rfl

theorem present_table (x : UInt32) : present (x ||| pagePresent ||| pageWritable) = true := by
  unfold present
  rw [flag_or, flag_or]
  simp [pagePresent, pageWritable]

theorem writable_table (x : UInt32) : writable (x ||| pagePresent ||| pageWritable) = true := by
  unfold writable
  rw [flag_or]
  simp [pageWritable]

end Bits

/-! ## Pages and their entries -/

theorem pdIndex_eq (virt : UInt32) : pdIndex virt = virt.toNat / 4096 / 1024 := by
  unfold pdIndex
  rw [UInt32.toNat_shiftRight, Nat.div_div_eq_div_mul, Nat.shiftRight_eq_div_pow]
  rfl

theorem ptIndex_eq (virt : UInt32) : ptIndex virt = virt.toNat / 4096 % 1024 := by
  unfold ptIndex
  rw [UInt32.toNat_and, UInt32.toNat_shiftRight, Nat.shiftRight_eq_div_pow,
    show (0x3FF : UInt32).toNat = 2 ^ 10 - 1 from rfl, Nat.and_two_pow_sub_one_eq_mod]
  rfl

theorem pdIndex_lt (virt : UInt32) : pdIndex virt < 1024 := by
  have hlt := virt.toNat_lt
  rw [pdIndex_eq]
  omega

theorem ptIndex_lt (virt : UInt32) : ptIndex virt < 1024 := by
  rw [ptIndex_eq]
  omega

/-- Two addresses are in one page where they have the same two indices. -/
theorem samePage_iff (v w : UInt32) :
    v.toNat / 4096 = w.toNat / 4096 ↔ pdIndex v = pdIndex w ∧ ptIndex v = ptIndex w := by
  rw [pdIndex_eq, pdIndex_eq, ptIndex_eq, ptIndex_eq]
  omega

/-! ## The tables -/

section

variable (st : Statics) (s : Machine)

def pde (i : ℕ) : UInt32 := s.memory st.pageDir i

def pte (i j : ℕ) : UInt32 := s.memory (base (pde st s i)) j

/-- The pages that the processor walks through. -/
def IsTable (page : UInt32) : Prop :=
  page = st.pageDir ∨ ∃ i < 1024, present (pde st s i) = true ∧ page = base (pde st s i)

/-- Every entry of the directory has a table of its own, and gives every right that an entry of the
table gives; the allocator counts the tables as used. -/
structure TablesOk : Prop where
  base_ne : ∀ i < 1024, present (pde st s i) = true → base (pde st s i) ≠ st.pageDir
  distinct : ∀ i < 1024, ∀ j < 1024, present (pde st s i) = true → present (pde st s j) = true →
    base (pde st s i) = base (pde st s j) → i = j
  writable : ∀ i < 1024, present (pde st s i) = true → writable (pde st s i) = true
  user : ∀ i < 1024, ∀ j < 1024, present (pde st s i) = true → user (pte st s i j) = true →
    user (pde st s i) = true
  kept : ∀ p, IsTable st s (address p) → p ∈ used s.pmm.bitmap

variable {st s}

theorem translate_eq (virt : UInt32) : translate st s virt =
    if present (pde st s (pdIndex virt)) && present (pte st s (pdIndex virt) (ptIndex virt)) then
      some ⟨base (pte st s (pdIndex virt) (ptIndex virt)),
        writable (pde st s (pdIndex virt)) && writable (pte st s (pdIndex virt) (ptIndex virt)),
        user (pde st s (pdIndex virt)) && user (pte st s (pdIndex virt) (ptIndex virt))⟩
    else none := rfl

/-- States with the same words in their tables translate alike. -/
theorem pte_congr {t : Machine} {i j : ℕ} (hpde : pde st t i = pde st s i)
    (hpage : t.memory (base (pde st s i)) = s.memory (base (pde st s i))) :
    pte st t i j = pte st s i j := by
  unfold pte
  rw [hpde, hpage]

/-! ### An entry in a table that is there -/

/-- The entry of the directory after a mapping with these flags. -/
def userPde (flags entry : UInt32) : UInt32 :=
  if flags &&& pageUser != 0 then entry ||| pageUser else entry

theorem base_userPde (flags entry : UInt32) : base (userPde flags entry) = base entry := by
  unfold userPde
  split
  · rw [base_or, show base pageUser = 0 from rfl, UInt32.or_zero]
  · rfl

theorem present_userPde (flags entry : UInt32) :
    present (userPde flags entry) = present entry := by
  unfold userPde present
  split
  · rw [flag_or, show (pageUser &&& pagePresent != 0) = false from rfl, Bool.or_false]
  · rfl

theorem writable_userPde (flags entry : UInt32) :
    writable (userPde flags entry) = writable entry := by
  unfold userPde writable
  split
  · rw [flag_or, show (pageUser &&& pageWritable != 0) = false from rfl, Bool.or_false]
  · rfl

theorem user_userPde (flags entry : UInt32) :
    user (userPde flags entry) = (user entry || user flags) := by
  unfold userPde user
  split
  next h =>
    rw [flag_or, h]
    simp [pageUser]
  next h =>
    rw [Bool.not_eq_true] at h
    rw [h, Bool.or_false]

variable (virt phys flags : UInt32)

theorem mapInTable_pmm : (mapInTable st s virt phys flags).pmm = s.pmm := by
  unfold mapInTable Machine.setWord
  dsimp only
  split
  · rfl
  · rfl

/-- The words of the tables after it. -/
theorem mapInTable_memory (hne : base (pde st s (pdIndex virt)) ≠ st.pageDir) (page : UInt32) :
    (mapInTable st s virt phys flags).memory page =
      if page = st.pageDir then
        Function.update (s.memory page) (pdIndex virt)
          (userPde flags (pde st s (pdIndex virt)))
      else if page = base (pde st s (pdIndex virt)) then
        Function.update (s.memory page) (ptIndex virt)
          (phys &&& ~~~0xFFF ||| flags &&& 0xFFF ||| pagePresent)
      else s.memory page := by
  have hdir : (if flags &&& pageUser != 0 then
        s.setWord st.pageDir (pdIndex virt) (s.memory st.pageDir (pdIndex virt) ||| pageUser)
      else s).memory = Function.update s.memory st.pageDir (Function.update (s.memory st.pageDir)
        (pdIndex virt) (userPde flags (pde st s (pdIndex virt)))) := by
    unfold userPde pde
    split
    · rfl
    · rw [Function.update_eq_self, Function.update_eq_self]
  have hbase : Function.update (s.memory st.pageDir) (pdIndex virt)
      (userPde flags (pde st s (pdIndex virt))) (pdIndex virt) &&& ~~~0xFFF
        = base (pde st s (pdIndex virt)) := by
    rw [Function.update_self]
    exact base_userPde flags _
  unfold mapInTable Machine.setWord
  unfold Machine.setWord at hdir
  dsimp only at hdir ⊢
  rw [hdir, Function.update_self, hbase, Function.update_of_ne hne]
  by_cases hpage : page = base (pde st s (pdIndex virt))
  · rw [hpage, Function.update_self, if_neg hne, if_pos rfl]
  · rw [Function.update_of_ne hpage, if_neg hpage]
    by_cases hpd : page = st.pageDir
    · rw [hpd, Function.update_self, if_pos rfl]
    · rw [Function.update_of_ne hpd, if_neg hpd]

section InTable

variable (hok : TablesOk st s) (hpresent : present (pde st s (pdIndex virt)) = true)
include hok hpresent

theorem pde_mapInTable (i : ℕ) : pde st (mapInTable st s virt phys flags) i =
    if i = pdIndex virt then userPde flags (pde st s i) else pde st s i := by
  have hne := hok.base_ne _ (pdIndex_lt virt) hpresent
  show (mapInTable st s virt phys flags).memory st.pageDir i = _
  rw [mapInTable_memory virt phys flags hne, if_pos rfl, Function.update_apply]
  split
  next h => rw [h]
  next h => rfl

theorem base_pde_mapInTable (i : ℕ) :
    base (pde st (mapInTable st s virt phys flags) i) = base (pde st s i) := by
  rw [pde_mapInTable virt phys flags hok hpresent]
  split
  · exact base_userPde flags _
  · rfl

theorem present_pde_mapInTable (i : ℕ) :
    present (pde st (mapInTable st s virt phys flags) i) = present (pde st s i) := by
  rw [pde_mapInTable virt phys flags hok hpresent]
  split
  · exact present_userPde flags _
  · rfl

theorem writable_pde_mapInTable (i : ℕ) :
    writable (pde st (mapInTable st s virt phys flags) i) = writable (pde st s i) := by
  rw [pde_mapInTable virt phys flags hok hpresent]
  split
  · exact writable_userPde flags _
  · rfl

theorem pte_mapInTable {i j : ℕ} (hi : i < 1024) (hentry : present (pde st s i) = true) :
    pte st (mapInTable st s virt phys flags) i j =
      if i = pdIndex virt ∧ j = ptIndex virt then
        phys &&& ~~~0xFFF ||| flags &&& 0xFFF ||| pagePresent
      else pte st s i j := by
  have hne := hok.base_ne _ (pdIndex_lt virt) hpresent
  unfold pte
  rw [base_pde_mapInTable virt phys flags hok hpresent, mapInTable_memory virt phys flags hne,
    if_neg (hok.base_ne i hi hentry)]
  by_cases hij : i = pdIndex virt
  · subst hij
    rw [if_pos rfl, Function.update_apply]
    simp
  · have hbase : base (pde st s i) ≠ base (pde st s (pdIndex virt)) := by
      intro h
      exact hij (hok.distinct i hi _ (pdIndex_lt virt) hentry hpresent h)
    rw [if_neg hbase, if_neg (fun h => hij h.1)]

theorem isTable_mapInTable (page : UInt32) :
    IsTable st (mapInTable st s virt phys flags) page ↔ IsTable st s page := by
  unfold IsTable
  simp only [present_pde_mapInTable virt phys flags hok hpresent,
    base_pde_mapInTable virt phys flags hok hpresent]

theorem mapInTable_ok : TablesOk st (mapInTable st s virt phys flags) := by
  have hbase := base_pde_mapInTable virt phys flags hok hpresent
  have hpres := present_pde_mapInTable virt phys flags hok hpresent
  refine ⟨?_, ?_, ?_, ?_, ?_⟩
  · intro i hi h
    rw [hpres] at h
    rw [hbase]
    exact hok.base_ne i hi h
  · intro i hi j hj h h' heq
    rw [hpres] at h h'
    rw [hbase, hbase] at heq
    exact hok.distinct i hi j hj h h' heq
  · intro i hi h
    rw [hpres] at h
    rw [writable_pde_mapInTable virt phys flags hok hpresent]
    exact hok.writable i hi h
  · intro i hi j hj h huser
    rw [hpres] at h
    rw [pte_mapInTable virt phys flags hok hpresent hi h] at huser
    rw [pde_mapInTable virt phys flags hok hpresent]
    -- The entry that is written has the right only where the directory's entry is given it.
    by_cases hij : i = pdIndex virt
    · rw [if_pos hij, user_userPde]
      split at huser
      · rw [user, flag_entry _ _ rfl rfl] at huser
        simp only [user, Bool.or_eq_true]
        simp only [Bool.or_eq_true] at huser
        rcases huser with huser | huser
        · exact .inr huser
        · exact absurd huser (by decide)
      · rw [hok.user i hi j hj h huser, Bool.true_or]
    · rw [if_neg hij]
      rw [if_neg (fun h => hij h.1)] at huser
      exact hok.user i hi j hj h huser
  · intro p hp
    rw [isTable_mapInTable virt phys flags hok hpresent] at hp
    rw [mapInTable_pmm]
    exact hok.kept p hp

/-- The page has the mapping that is asked for, every other one keeps its own. -/
theorem mapInTable_translate (v : UInt32) :
    translate st (mapInTable st s virt phys flags) v =
      if v.toNat / 4096 = virt.toNat / 4096 then
        some ⟨phys &&& ~~~0xFFF, writable flags, user flags⟩
      else translate st s v := by
  have hv := pdIndex_lt v
  rw [translate_eq, translate_eq, present_pde_mapInTable virt phys flags hok hpresent,
    writable_pde_mapInTable virt phys flags hok hpresent]
  by_cases hentry : present (pde st s (pdIndex v)) = true
  · rw [pte_mapInTable virt phys flags hok hpresent hv hentry, hentry, Bool.true_and, Bool.true_and,
      pde_mapInTable virt phys flags hok hpresent, hok.writable _ hv hentry, Bool.true_and,
      Bool.true_and]
    by_cases hsame : v.toNat / 4096 = virt.toNat / 4096
    · rw [if_pos hsame, if_pos ((samePage_iff v virt).1 hsame)]
      have hpte : present (phys &&& ~~~0xFFF ||| flags &&& 0xFFF ||| pagePresent) = true := by
        rw [present, flag_entry _ _ rfl rfl]
        exact Bool.or_true _
      have hwritable : writable (phys &&& ~~~0xFFF ||| flags &&& 0xFFF ||| pagePresent)
          = writable flags := by
        rw [writable, flag_entry _ _ rfl rfl]
        exact Bool.or_false _
      have huser : user (phys &&& ~~~0xFFF ||| flags &&& 0xFFF ||| pagePresent) = user flags := by
        rw [user, flag_entry _ _ rfl rfl]
        exact Bool.or_false _
      rw [if_pos hpte, base_entry, hwritable, huser, if_pos ((samePage_iff v virt).1 hsame).1,
        user_userPde, Bool.and_comm, Bool.and_or_distrib_left, Bool.and_self]
      cases user flags
      · rw [Bool.false_and, Bool.false_or]
      · rw [Bool.or_true]
    · rw [if_neg hsame, if_neg (fun h => hsame ((samePage_iff v virt).2 h))]
      -- The right that the directory's entry gains was there for every entry that has it.
      have huser : (user (if pdIndex v = pdIndex virt then userPde flags (pde st s (pdIndex v))
            else pde st s (pdIndex v)) && user (pte st s (pdIndex v) (ptIndex v)))
          = (user (pde st s (pdIndex v)) && user (pte st s (pdIndex v) (ptIndex v))) := by
        cases hpte : user (pte st s (pdIndex v) (ptIndex v))
        · rw [Bool.and_false, Bool.and_false]
        · have hpde := hok.user _ hv _ (ptIndex_lt v) hentry hpte
          split
          · rw [user_userPde, hpde, Bool.true_or]
          · rfl
      rw [huser]
  · have hne : ¬v.toNat / 4096 = virt.toNat / 4096 := by
      intro hsame
      rw [((samePage_iff v virt).1 hsame).1] at hentry
      exact hentry hpresent
    rw [Bool.not_eq_true] at hentry
    rw [if_neg hne, hentry, Bool.false_and, Bool.false_and, if_neg Bool.false_ne_true,
      if_neg Bool.false_ne_true]

end InTable

/-! ### A new table -/

/-- What `paging_map` does where the directory has no table and the allocator has a page. -/
def newTable (st : Statics) (s : Machine) (i : ℕ) : Machine :=
  (({ s with pmm := (pmmAllocPage s.pmm).1 } : Machine).clear (pmmAllocPage s.pmm).2).setWord
    st.pageDir i ((pmmAllocPage s.pmm).2 ||| pagePresent ||| pageWritable)

section NewTable

variable {p : Page} {i : ℕ} (hok : TablesOk st s) (hp : p ∉ used s.pmm.bitmap)
  (halloc : pmmAllocPage s.pmm =
    (⟨markUsed s.pmm.bitmap p, s.pmm.usedCount + 1⟩, address p))
include hok hp halloc

theorem pde_newTable (j : ℕ) : pde st (newTable st s i) j =
    if j = i then address p ||| pagePresent ||| pageWritable else pde st s j := by
  have hne : address p ≠ st.pageDir := fun h => hp (hok.kept p (.inl h))
  unfold pde newTable
  rw [halloc]
  unfold Machine.setWord Machine.clear
  dsimp only
  rw [Function.update_self, Function.update_of_ne hne.symm, Function.update_apply]

theorem base_pde_newTable (j : ℕ) : base (pde st (newTable st s i) j) =
    if j = i then address p else base (pde st s j) := by
  rw [pde_newTable hok hp halloc]
  split
  · exact base_table (address_dvd p)
  · rfl

theorem present_pde_newTable (j : ℕ) : present (pde st (newTable st s i) j) =
    if j = i then true else present (pde st s j) := by
  rw [pde_newTable hok hp halloc]
  split
  · exact present_table _
  · rfl

theorem pte_newTable {j : ℕ} (hj : j < 1024) (k : ℕ) (h : present (pde st s j) = true ∨ j = i) :
    pte st (newTable st s i) j k = if j = i then 0 else pte st s j k := by
  have hne : address p ≠ st.pageDir := fun h => hp (hok.kept p (.inl h))
  unfold pte
  rw [base_pde_newTable hok hp halloc]
  unfold newTable
  rw [halloc]
  unfold Machine.setWord Machine.clear
  dsimp only
  by_cases hij : j = i
  · rw [if_pos hij, if_pos hij, Function.update_of_ne hne, Function.update_self]
  · have hpresent := h.resolve_right hij
    have hfresh : base (pde st s j) ≠ address p := by
      intro heq
      exact hp (hok.kept p (.inr ⟨j, hj, hpresent, heq.symm⟩))
    rw [if_neg hij, if_neg hij, Function.update_of_ne (hok.base_ne j hj hpresent),
      Function.update_of_ne hfresh]

omit hok hp in
theorem used_newTable : used (newTable st s i).pmm.bitmap = insert p (used s.pmm.bitmap) := by
  rw [← used_markUsed]
  show used (pmmAllocPage s.pmm).1.bitmap = used (markUsed s.pmm.bitmap p)
  rw [halloc]

theorem newTable_ok : TablesOk st (newTable st s i) := by
  have hbase (j : ℕ) : base (pde st (newTable st s i) j) =
      if j = i then address p else base (pde st s j) := base_pde_newTable hok hp halloc j
  have hpres (j : ℕ) : present (pde st (newTable st s i) j) =
      if j = i then true else present (pde st s j) := present_pde_newTable hok hp halloc j
  have hne : address p ≠ st.pageDir := fun h => hp (hok.kept p (.inl h))
  have hfresh (j : ℕ) (hj : j < 1024) (h : present (pde st s j) = true) :
      base (pde st s j) ≠ address p := fun heq => hp (hok.kept p (.inr ⟨j, hj, h, heq.symm⟩))
  refine ⟨?_, ?_, ?_, ?_, ?_⟩
  · intro j hj h
    rw [hpres] at h
    rw [hbase]
    split at h
    next hij =>
      rw [if_pos hij]
      exact hne
    next hij =>
      rw [if_neg hij]
      exact hok.base_ne j hj h
  · intro j hj k hk h h' heq
    rw [hpres] at h h'
    rw [hbase, hbase] at heq
    by_cases hij : j = i
    · by_cases hik : k = i
      · rw [hij, hik]
      · rw [if_neg hik] at h'
        rw [if_pos hij, if_neg hik] at heq
        exact absurd heq.symm (hfresh k hk h')
    · rw [if_neg hij] at h heq
      by_cases hik : k = i
      · rw [if_pos hik] at heq
        exact absurd heq (hfresh j hj h)
      · rw [if_neg hik] at h' heq
        exact hok.distinct j hj k hk h h' heq
  · intro j hj h
    rw [hpres] at h
    rw [pde_newTable hok hp halloc]
    split at h
    next hij =>
      rw [if_pos hij]
      exact writable_table _
    next hij =>
      rw [if_neg hij]
      exact hok.writable j hj h
  · intro j hj k hk h huser
    rw [hpres] at h
    by_cases hij : j = i
    · rw [pte_newTable hok hp halloc hj k (.inr hij), if_pos hij] at huser
      exact absurd huser (by decide)
    · rw [if_neg hij] at h
      rw [pte_newTable hok hp halloc hj k (.inl h), if_neg hij] at huser
      rw [pde_newTable hok hp halloc, if_neg hij]
      exact hok.user j hj k hk h huser
  · intro q hq
    rw [used_newTable halloc, Finset.mem_insert]
    rcases hq with hq | ⟨j, hj, h, hq⟩
    · exact .inr (hok.kept q (.inl hq))
    · rw [hpres] at h
      rw [hbase] at hq
      split at hq
      next => exact .inl (address_injective hq)
      next hij =>
        rw [if_neg hij] at h
        exact .inr (hok.kept q (.inr ⟨j, hj, h, hq⟩))

/-- The new table has no page yet. -/
theorem newTable_translate (hentry : present (pde st s i) = false) (v : UInt32) :
    translate st (newTable st s i) v = translate st s v := by
  have hv := pdIndex_lt v
  rw [translate_eq, translate_eq, present_pde_newTable hok hp halloc]
  by_cases hij : pdIndex v = i
  · have hnone : present (0 : UInt32) = false := rfl
    rw [pte_newTable hok hp halloc hv _ (.inr hij), if_pos hij, if_pos hij, hnone, Bool.and_false,
      if_neg Bool.false_ne_true, hij, hentry, Bool.false_and, if_neg Bool.false_ne_true]
  · rw [if_neg hij]
    by_cases h : present (pde st s (pdIndex v)) = true
    · rw [pte_newTable hok hp halloc hv _ (.inl h), if_neg hij, pde_newTable hok hp halloc,
        if_neg hij]
    · rw [Bool.not_eq_true] at h
      rw [h, Bool.false_and, Bool.false_and, if_neg Bool.false_ne_true, if_neg Bool.false_ne_true]

end NewTable

/-! ## Mapping a page -/

/-- The directory has no table for the page, and the allocator has no page for one. -/
def RunsOut (st : Statics) (s : Machine) (virt : UInt32) : Prop :=
  present (pde st s (pdIndex virt)) = false ∧ (pmmAllocPage s.pmm).2 = 0

instance (st : Statics) (s : Machine) (virt : UInt32) : Decidable (RunsOut st s virt) := by
  unfold RunsOut
  infer_instance

theorem directory_empty_iff {i : ℕ} :
    (s.memory st.pageDir i &&& pagePresent == 0) = true ↔ present (pde st s i) = false := by
  unfold present pde
  rw [beq_iff_eq, bne_eq_false_iff_eq]

/-- The call ends in a table that is there, in a new one, or without one. -/
theorem pagingMap_cases (hok : TablesOk st s) :
    (∃ t, pagingMap st s virt phys flags = mapInTable st t virt phys flags ∧ TablesOk st t ∧
      present (pde st t (pdIndex virt)) = true ∧ (∀ v, translate st t v = translate st s v)) ∧
      ¬RunsOut st s virt ∨
    RunsOut st s virt ∧
      pagingMap st s virt phys flags = { s with pmm := (pmmAllocPage s.pmm).1 } := by
  unfold RunsOut
  by_cases h : present (pde st s (pdIndex virt)) = false
  · unfold pagingMap
    rw [if_pos (directory_empty_iff.2 h)]
    by_cases hzero : (pmmAllocPage s.pmm).2 = 0
    · refine .inr ⟨⟨h, hzero⟩, ?_⟩
      simp only [beq_iff_eq, if_pos hzero]
    · refine .inl ⟨⟨newTable st s (pdIndex virt), ?_⟩, fun hout => hzero hout.2⟩
      rcases allocPage_cases s.pmm with ⟨p, hp, halloc⟩ | ⟨-, halloc⟩
      · refine ⟨?_, newTable_ok hok hp halloc, ?_, newTable_translate hok hp halloc h⟩
        · simp only [beq_iff_eq, if_neg hzero]
          rfl
        · rw [present_pde_newTable hok hp halloc, if_pos rfl]
      · rw [halloc] at hzero
        exact absurd rfl hzero
  · unfold pagingMap
    rw [if_neg (fun h' => h (directory_empty_iff.1 h'))]
    rw [Bool.not_eq_false] at h
    refine .inl ⟨⟨s, rfl, hok, h, fun v => rfl⟩, ?_⟩
    rw [h]
    simp

theorem pagingMap_ok (hok : TablesOk st s) : TablesOk st (pagingMap st s virt phys flags) := by
  rcases pagingMap_cases virt phys flags hok with ⟨⟨t, heq, ht, hpresent, -⟩, -⟩ | ⟨-, heq⟩
  · rw [heq]
    exact mapInTable_ok virt phys flags ht hpresent
  · rw [heq]
    refine ⟨hok.base_ne, hok.distinct, hok.writable, hok.user, ?_⟩
    intro p hp
    have hmem := hok.kept p hp
    exact used_allocPage s.pmm hmem

theorem pagingMap_translate (hok : TablesOk st s) (v : UInt32) :
    translate st (pagingMap st s virt phys flags) v =
      if v.toNat / 4096 = virt.toNat / 4096 ∧ ¬RunsOut st s virt then
        some ⟨phys &&& ~~~0xFFF, writable flags, user flags⟩
      else translate st s v := by
  rcases pagingMap_cases virt phys flags hok with ⟨⟨t, heq, ht, hpresent, hsame⟩, hroom⟩ |
    ⟨hout, heq⟩
  · rw [heq, mapInTable_translate virt phys flags ht hpresent, hsame]
    simp only [hroom, not_false_eq_true, and_true]
  · rw [heq, if_neg (fun h => h.2 hout)]
    rfl

/-! ## The start -/

/-- A loop that fills the first words of a page. -/
theorem fill_words {page : UInt32} {f : ℕ → UInt32} {n : ℕ} {s t : Machine}
    (ht : (List.range n).foldl (fun s i => s.setWord page i (f i)) s = t) :
    (∀ i < n, t.memory page i = f i) ∧ (∀ q, q ≠ page → t.memory q = s.memory q) ∧
      t.pmm = s.pmm := by
  induction n generalizing t with
  | zero =>
    subst ht
    exact ⟨by simp, fun q hq => rfl, rfl⟩
  | succ n ih =>
    rw [List.range_succ, List.foldl_append, List.foldl_cons, List.foldl_nil] at ht
    generalize hr : (List.range n).foldl (fun s i => s.setWord page i (f i)) s = r at ht
    obtain ⟨hwords, hothers, hpmm⟩ := ih hr
    subst ht
    refine ⟨?_, ?_, hpmm⟩
    · intro i hi
      unfold Machine.setWord
      dsimp only
      rw [Function.update_self]
      by_cases hin : i = n
      · rw [hin, Function.update_self]
      · rw [Function.update_of_ne hin]
        exact hwords i (by omega)
    · intro q hq
      unfold Machine.setWord
      dsimp only
      rw [Function.update_of_ne hq]
      exact hothers q hq

theorem identity_dvd (j : ℕ) : 4096 ∣ (UInt32.ofNat (j * 4096)).toNat := by
  rw [UInt32.toNat_ofNat']
  omega

/-- The words of the directory and of the first table after `paging_init`. -/
theorem pagingInit_words (st : Statics) (s : Machine) :
    (∀ i < 1024, pde st (pagingInit st s) i =
      if i = 0 then st.pageTable0 ||| pagePresent ||| pageWritable else 0) ∧
    (∀ j < 1024, (pagingInit st s).memory st.pageTable0 j =
      (UInt32.ofNat (j * 4096) ||| pagePresent ||| pageWritable)) ∧
    (pagingInit st s).pmm = s.pmm := by
  unfold pagingInit pde
  dsimp only
  generalize hdirLoop : (List.range 1024).foldl (fun s i => s.setWord st.pageDir i 0) s = s₁
  generalize htableLoop : (List.range 1024).foldl (fun s i => s.setWord st.pageTable0 i
    (UInt32.ofNat (i * 4096) ||| pagePresent ||| pageWritable)) s₁ = s₂
  obtain ⟨hdir, -, hpmm⟩ := fill_words hdirLoop
  obtain ⟨htable, hothers, hpmm'⟩ := fill_words htableLoop
  unfold Machine.setWord
  refine ⟨?_, ?_, hpmm'.trans hpmm⟩
  · intro i hi
    dsimp only
    rw [Function.update_self, Function.update_apply, hothers _ st.apart, hdir i hi]
  · intro j hj
    dsimp only
    rw [Function.update_of_ne st.apart.symm, htable j hj]

section Init

variable (st : Statics) (s : Machine)

theorem present_pagingInit {i : ℕ} (hi : i < 1024) :
    present (pde st (pagingInit st s) i) = decide (i = 0) := by
  rw [(pagingInit_words st s).1 i hi]
  split
  next h =>
    rw [present_table]
    simp [h]
  next h => simp [h, show present 0 = false from rfl]

theorem base_pagingInit : base (pde st (pagingInit st s) 0) = st.pageTable0 := by
  rw [(pagingInit_words st s).1 0 (by decide), if_pos rfl, base_table st.pageTable0_aligned]

theorem pte_pagingInit {j : ℕ} (hj : j < 1024) : pte st (pagingInit st s) 0 j =
    (UInt32.ofNat (j * 4096) ||| pagePresent ||| pageWritable) := by
  unfold pte
  rw [base_pagingInit, (pagingInit_words st s).2.1 j hj]

/-- The two pages are none that the allocator hands out. -/
def Owned (st : Statics) (pmm : Pmm) : Prop :=
  ∀ p, address p = st.pageDir ∨ address p = st.pageTable0 → p ∈ used pmm.bitmap

theorem pagingInit_ok (howned : Owned st s.pmm) : TablesOk st (pagingInit st s) := by
  have hzero {i : ℕ} (hi : i < 1024) (h : present (pde st (pagingInit st s) i) = true) : i = 0 := by
    rw [present_pagingInit st s hi] at h
    exact of_decide_eq_true h
  refine ⟨?_, ?_, ?_, ?_, ?_⟩
  · intro i hi h
    rw [hzero hi h, base_pagingInit]
    exact st.apart.symm
  · intro i hi j hj h h' heq
    rw [hzero hi h, hzero hj h']
  · intro i hi h
    rw [(pagingInit_words st s).1 i hi, if_pos (hzero hi h)]
    exact writable_table _
  · intro i hi j hj h huser
    rw [hzero hi h, pte_pagingInit st s hj, user_table (identity_dvd j)] at huser
    contradiction
  · intro p hp
    rw [(pagingInit_words st s).2.2]
    rcases hp with hp | ⟨i, hi, h, hp⟩
    · exact howned p (.inl hp)
    · rw [hzero hi h, base_pagingInit] at hp
      exact howned p (.inr hp)

/-- The first 4 MB are mapped to themselves, for the kernel. -/
theorem pagingInit_translate (v : UInt32) : translate st (pagingInit st s) v =
    if v.toNat < 4 * 1024 * 1024 then some ⟨v &&& ~~~0xFFF, true, false⟩ else none := by
  have hv := pdIndex_lt v
  have hi := pdIndex_eq v
  rw [translate_eq, present_pagingInit st s hv]
  by_cases hlow : v.toNat < 4 * 1024 * 1024
  · have hpd : pdIndex v = 0 := by omega
    have hframe : UInt32.ofNat (ptIndex v * 4096) = v &&& ~~~0xFFF := by
      have hpt := ptIndex_eq v
      apply UInt32.toNat_inj.1
      rw [base_toNat, UInt32.toNat_ofNat']
      omega
    rw [if_pos hlow, hpd, pte_pagingInit st s (ptIndex_lt v), present_table, writable_table,
      user_table (identity_dvd _), base_table (identity_dvd _), hframe,
      (pagingInit_words st s).1 0 (by decide), if_pos rfl, writable_table, Bool.and_false]
    rfl
  · have hpd : pdIndex v ≠ 0 := by omega
    rw [if_neg hlow, decide_eq_false hpd, Bool.false_and, if_neg Bool.false_ne_true]

end Init

/-! ## Mapping a range -/

/-- The pages of a range of this size. -/
def pageCount (size : UInt32) : ℕ := (size.toNat + 4095) / 4096

/-- The machine after the first `k` pages of a range, in their order. -/
def mapPages (st : Statics) (s : Machine) (virt phys flags : UInt32) (k : ℕ) : Machine :=
  (List.range k).foldl (fun s i => pagingMap st s (virt + UInt32.ofNat (4096 * i))
    (phys + UInt32.ofNat (4096 * i)) flags) s

theorem mapPages_succ (k : ℕ) : mapPages st s virt phys flags (k + 1) =
    pagingMap st (mapPages st s virt phys flags k) (virt + UInt32.ofNat (4096 * k))
      (phys + UInt32.ofNat (4096 * k)) flags := by
  unfold mapPages
  rw [List.range_succ, List.foldl_append]
  rfl

variable {size : UInt32}

/-- The loop goes through the pages and returns. -/
theorem mapRangeFrom_eq (hsize : size.toNat ≤ 0xFFFFF000) (todo : ℕ) :
    ∀ k fuel, k + todo = pageCount size → todo < fuel →
      mapRangeFrom st virt phys size flags fuel (UInt32.ofNat (4096 * k))
        (mapPages st s virt phys flags k)
        = some (mapPages st s virt phys flags (pageCount size)) := by
  induction todo with
  | zero =>
    intro k fuel hk hfuel
    obtain ⟨fuel, rfl⟩ := Nat.exists_eq_add_of_lt hfuel
    have hdone : ¬UInt32.ofNat (4096 * k) < size := by
      unfold pageCount at hk
      rw [UInt32.lt_iff_toNat_lt, UInt32.toNat_ofNat']
      omega
    rw [mapRangeFrom, if_neg hdone, ← hk]
    rfl
  | succ todo ih =>
    intro k fuel hk hfuel
    obtain ⟨fuel, rfl⟩ := Nat.exists_eq_add_of_lt hfuel
    have hmore : UInt32.ofNat (4096 * k) < size := by
      unfold pageCount at hk
      rw [UInt32.lt_iff_toNat_lt, UInt32.toNat_ofNat']
      omega
    have hnext : UInt32.ofNat (4096 * k) + 4096 = UInt32.ofNat (4096 * (k + 1)) := by
      rw [Nat.mul_succ, UInt32.ofNat_add]
      rfl
    rw [mapRangeFrom, if_pos hmore, hnext, ← mapPages_succ]
    exact ih (k + 1) _ (by omega) (by omega)

theorem mapPages_ok (hok : TablesOk st s) (k : ℕ) :
    TablesOk st (mapPages st s virt phys flags k) := by
  induction k with
  | zero => exact hok
  | succ k ih =>
    rw [mapPages_succ]
    exact pagingMap_ok _ _ _ ih

/-- The first `k` pages are mapped in order, every other page keeps its mapping. -/
theorem mapPages_translate (hok : TablesOk st s) (hphys : 4096 ∣ phys.toNat)
    (hvirtSize : virt.toNat + size.toNat ≤ 2 ^ 32) (hvirt : 4096 ∣ virt.toNat)
    (hphysSize : phys.toNat + size.toNat ≤ 2 ^ 32) (k : ℕ) (hk : k ≤ pageCount size)
    (hroom : ∀ i < k, ¬RunsOut st (mapPages st s virt phys flags i)
      (virt + UInt32.ofNat (4096 * i))) :
    (∀ i < k, ∀ v : UInt32, v.toNat / 4096 = virt.toNat / 4096 + i →
      translate st (mapPages st s virt phys flags k) v =
        some ⟨phys + UInt32.ofNat (4096 * i), writable flags, user flags⟩) ∧
    ∀ v : UInt32, ¬(virt.toNat / 4096 ≤ v.toNat / 4096 ∧
        v.toNat / 4096 < virt.toNat / 4096 + k) →
      translate st (mapPages st s virt phys flags k) v = translate st s v := by
  induction k with
  | zero => exact ⟨fun i hi => absurd hi (by omega), fun v hv => rfl⟩
  | succ k ih =>
    obtain ⟨hmapped, hothers⟩ := ih (by omega) fun i hi => hroom i (by omega)
    have hlast := hroom k (by omega)
    unfold pageCount at hk
    have hoffset : (UInt32.ofNat (4096 * k)).toNat = 4096 * k := by
      rw [UInt32.toNat_ofNat']
      omega
    have hpage : (virt + UInt32.ofNat (4096 * k)).toNat / 4096 = virt.toNat / 4096 + k := by
      rw [UInt32.toNat_add, hoffset]
      omega
    have hframe : (phys + UInt32.ofNat (4096 * k)) &&& ~~~0xFFF = phys +
        UInt32.ofNat (4096 * k) := by
      apply base_of_dvd
      rw [UInt32.toNat_add, hoffset]
      omega
    rw [mapPages_succ]
    constructor
    · intro i hi v hv
      rw [pagingMap_translate _ _ _ (mapPages_ok virt phys flags hok k), hpage, hframe]
      by_cases hik : i = k
      · rw [if_pos ⟨by omega, hlast⟩, hik]
      · rw [if_neg (by omega)]
        exact hmapped i (by omega) v hv
    · intro v hv
      rw [pagingMap_translate _ _ _ (mapPages_ok virt phys flags hok k), hpage, if_neg (by omega)]
      exact hothers v (by omega)

/-! ## Runs -/

/-- The states that the functions reach from `paging_init`, while everything else keeps off the
tables and the allocator hands none of them out. -/
inductive Reached (st : Statics) : Machine → Prop
  | init {s : Machine} : Owned st s.pmm → Reached st (pagingInit st s)
  | map {s : Machine} (virt phys flags : UInt32) : Reached st s →
      Reached st (pagingMap st s virt phys flags)
  | mapRange {s t : Machine} (fuel : ℕ) (virt phys size flags : UInt32) : Reached st s →
      pagingMapRange st fuel s virt phys size flags = some t → Reached st t
  | others {s t : Machine} : Reached st s →
      (∀ page, IsTable st s page → t.memory page = s.memory page) →
      (∀ p, IsTable st s (address p) → p ∈ used t.pmm.bitmap) → Reached st t

theorem mapRangeFrom_ok {t : Machine} (fuel : ℕ) (offset : UInt32) (hok : TablesOk st s)
    (h : mapRangeFrom st virt phys size flags fuel offset s = some t) : TablesOk st t := by
  induction fuel generalizing offset s with
  | zero => simp [mapRangeFrom] at h
  | succ fuel ih =>
    unfold mapRangeFrom at h
    split at h
    · exact ih _ (pagingMap_ok _ _ _ hok) h
    · rw [← Option.some.inj h]
      exact hok

/-- What is no table may change. -/
theorem TablesOk.others {t : Machine} (hok : TablesOk st s)
    (hmemory : ∀ page, IsTable st s page → t.memory page = s.memory page)
    (hkept : ∀ p, IsTable st s (address p) → p ∈ used t.pmm.bitmap) : TablesOk st t := by
  have hpde (i : ℕ) : pde st t i = pde st s i := congrFun (hmemory _ (.inl rfl)) i
  have hpte {i : ℕ} (hi : i < 1024) (h : present (pde st s i) = true) (j : ℕ) :
      pte st t i j = pte st s i j :=
    pte_congr (hpde i) (hmemory _ (.inr ⟨i, hi, h, rfl⟩))
  refine ⟨?_, ?_, ?_, ?_, ?_⟩
  · simp only [hpde]
    exact hok.base_ne
  · simp only [hpde]
    exact hok.distinct
  · simp only [hpde]
    exact hok.writable
  · intro i hi j hj h huser
    rw [hpde] at h
    rw [hpte hi h] at huser
    rw [hpde]
    exact hok.user i hi j hj h huser
  · intro p hp
    unfold IsTable at hp
    simp only [hpde] at hp
    exact hkept p hp

theorem Reached.ok (h : Reached st s) : TablesOk st s := by
  induction h with
  | init howned => exact pagingInit_ok _ _ howned
  | map virt phys flags _ ih => exact pagingMap_ok virt phys flags ih
  | mapRange fuel virt phys size flags _ heq ih =>
      exact mapRangeFrom_ok virt phys flags fuel 0 ih heq
  | others _ hmemory hkept ih => exact ih.others hmemory hkept

/-- One call changes the mapping of one page, and one call for a range that of the pages of the
range. -/
theorem paging_frames (h : Reached st s) :
    (∀ virt phys flags v, translate st (pagingMap st s virt phys flags) v =
      if v.toNat / 4096 = virt.toNat / 4096 ∧ ¬RunsOut st s virt then
        some ⟨phys &&& ~~~0xFFF, writable flags, user flags⟩
      else translate st s v) ∧
    ∀ virt phys size flags : UInt32, 4096 ∣ virt.toNat → 4096 ∣ phys.toNat →
      virt.toNat + size.toNat ≤ 2 ^ 32 → phys.toNat + size.toNat ≤ 2 ^ 32 →
      size.toNat ≤ 0xFFFFF000 →
      (∀ i < pageCount size, ¬RunsOut st (mapPages st s virt phys flags i)
        (virt + UInt32.ofNat (4096 * i))) →
      ∃ t, (∀ fuel > pageCount size, pagingMapRange st fuel s virt phys size flags = some t) ∧
        t = mapPages st s virt phys flags (pageCount size) ∧
        (∀ i < pageCount size, ∀ v : UInt32, v.toNat / 4096 = virt.toNat / 4096 + i →
          translate st t v =
            some ⟨phys + UInt32.ofNat (4096 * i), writable flags, user flags⟩) ∧
        ∀ v : UInt32, ¬(virt.toNat / 4096 ≤ v.toNat / 4096 ∧
            v.toNat / 4096 < virt.toNat / 4096 + pageCount size) →
          translate st t v = translate st s v := by
  constructor
  · intro virt phys flags v
    exact pagingMap_translate virt phys flags h.ok v
  · intro virt phys size flags hvirt hphys hvirtSize hphysSize hsize hroom
    refine ⟨_, ?_, rfl, mapPages_translate virt phys flags h.ok hphys hvirtSize hvirt hphysSize _
      le_rfl hroom⟩
    intro fuel hfuel
    exact mapRangeFrom_eq virt phys flags hsize _ 0 fuel (Nat.zero_add _) hfuel

/-- Arrays in a kernel that ends at 1 MB. -/
def lowStatics : Statics where
  pageDir := 0x8000
  pageTable0 := 0x9000
  pageDir_aligned := by decide
  pageTable0_aligned := by decide
  apart := by decide

def lowMachine : Machine := ⟨fun _ _ => 0, pmmInit ⟨fun _ => 0, 0⟩ 0x100000⟩

theorem lowMachine_owned : Owned lowStatics lowMachine.pmm := by
  intro p hp
  have hused : used lowMachine.pmm.bitmap = reserved 0x100000 := (init_spec _ (by decide)).2
  have hlow : (address p).toNat ≤ 0x9000 := by
    rcases hp with hp | hp
    · rw [hp]
      decide
    · rw [hp]
      decide
  rw [address_toNat] at hlow
  rw [hused, reserved, Finset.mem_filter]
  refine ⟨Finset.mem_univ p, .inl ?_⟩
  simp only [UInt32.reduceToNat]
  omega

/-- A page of the identity map is given to the user elsewhere, and the one after it stays. -/
theorem paging_frames_identity :
    let s := pagingInit lowStatics lowMachine
    let t := pagingMap lowStatics s 0x1000 0x200000 pageUser
    translate lowStatics t 0x1234 = some ⟨0x200000, false, true⟩ ∧
      translate lowStatics t 0x2234 = translate lowStatics s 0x2234 := by
  have hframes := (paging_frames (.init lowMachine_owned)).1 0x1000 0x200000 pageUser
  have hroom : ¬RunsOut lowStatics (pagingInit lowStatics lowMachine) 0x1000 := by
    intro hout
    rw [RunsOut, present_pagingInit _ _ (pdIndex_lt _)] at hout
    exact absurd hout.1 (by decide)
  dsimp only
  rw [hframes, hframes, if_pos ⟨by decide, hroom⟩, if_neg (fun h => absurd h.1 (by decide))]
  exact ⟨by decide, rfl⟩

end

end MinervaOS.Memory
