import Mathlib.Data.Fintype.Prod
import Mathlib.Logic.Equiv.Fin.Basic
import Mathlib.Data.Fintype.Card
import Mathlib.Algebra.GroupWithZero.Nat

/-!
# The page allocator

`pmm.c` keeps one bit for each of the 8192 pages of memory and a counter of those that are set. Its
pages are `Page` here, so that no byte outside the bitmap can be named. Whatever the calls, the
counter is the number of bits (`Counts`); where only held pages are freed, the used pages are the
reserved ones and the held ones, and these are disjoint (`Holds`).
-/

namespace MinervaOS.Memory

def pageSize : ℕ := 4096
def totalPages : ℕ := 8192
def bitmapBytes : ℕ := 1024

abbrev Page := Fin totalPages

structure Pmm where
  bitmap : Fin bitmapBytes → UInt8
  usedCount : UInt32

/-! ## The functions -/

def byteOf (p : Page) : Fin bitmapBytes := ⟨p / 8, Nat.div_lt_of_lt_mul p.2⟩

def bitOf (p : Page) : UInt32 := UInt32.ofNat (p % 8)

def markUsed (bitmap : Fin bitmapBytes → UInt8) (p : Page) : Fin bitmapBytes → UInt8 :=
  Function.update bitmap (byteOf p) ((bitmap (byteOf p)).toUInt32 ||| 1 <<< bitOf p).toUInt8

def markFree (bitmap : Fin bitmapBytes → UInt8) (p : Page) : Fin bitmapBytes → UInt8 :=
  Function.update bitmap (byteOf p) ((bitmap (byteOf p)).toUInt32 &&& ~~~(1 <<< bitOf p)).toUInt8

def isUsed (bitmap : Fin bitmapBytes → UInt8) (p : Page) : UInt32 :=
  (bitmap (byteOf p)).toUInt32 >>> bitOf p &&& 1

/-- The body of the second loop of `pmm_init`. -/
def initPage (s : Pmm) (i : Page) : Pmm :=
  if 0xA0 ≤ i.val ∧ i.val ≤ 0xBF then s else ⟨markFree s.bitmap i, s.usedCount - 1⟩

def pmmInit (s : Pmm) (kernelEnd : UInt32) : Pmm :=
  let bitmap := (List.finRange bitmapBytes).foldl (fun b i => Function.update b i 0xFF) s.bitmap
  let firstFree := (kernelEnd + 4096 - 1) / 4096
  ((List.finRange totalPages).drop firstFree.toNat).foldl initPage ⟨bitmap, 8192⟩

/-- `i * PAGE_SIZE` -/
def address (p : Page) : UInt32 := UInt32.ofNat (p * pageSize)

/-- The loop of `pmm_alloc_page`, over the pages that are left. -/
def allocFrom (s : Pmm) : List Page → Pmm × UInt32
  | [] => (s, 0)
  | i :: rest =>
    if isUsed s.bitmap i == 0 then (⟨markUsed s.bitmap i, s.usedCount + 1⟩, address i)
    else allocFrom s rest

def pmmAllocPage (s : Pmm) : Pmm × UInt32 := allocFrom s (List.finRange totalPages)

def pmmFreePage (s : Pmm) (phys : UInt32) : Pmm :=
  let p := (phys / 4096).toNat
  if h : p < totalPages then
    if isUsed s.bitmap ⟨p, h⟩ != 0 then ⟨markFree s.bitmap ⟨p, h⟩, s.usedCount - 1⟩ else s
  else s

def pmmUsedPages (s : Pmm) : UInt32 := s.usedCount
def pmmFreePages (s : Pmm) : UInt32 := 8192 - s.usedCount
def pmmTotalPages : UInt32 := 8192

/-! ## The bits -/

theorem bit_used (b : UInt8) {k : ℕ} (hk : k < 8) :
    b.toUInt32 >>> UInt32.ofNat k &&& 1 = if b.toNat.testBit k then 1 else 0 := by
  have hk32 : k % 4294967296 % 32 = k := by omega
  have hbit : b.toNat >>> k % 2 = (b.toNat.testBit k).toNat := by
    rw [Nat.toNat_testBit, Nat.shiftRight_eq_div_pow]
  apply UInt32.toNat_inj.1
  rw [UInt32.toNat_and, UInt32.toNat_shiftRight, UInt32.toNat_ofNat', UInt8.toNat_toUInt32]
  simp only [Nat.reducePow, hk32, UInt32.toNat_one]
  rw [Nat.and_one_is_mod, hbit]
  cases b.toNat.testBit k
  · rfl
  · rfl

theorem bit_set (b : UInt8) {k j : ℕ} (hk : k < 8) (hj : j < 8) :
    (b.toUInt32 ||| 1 <<< UInt32.ofNat k).toUInt8.toNat.testBit j
      = (b.toNat.testBit j || decide (j = k)) := by
  have hk32 : k % 4294967296 % 32 = k := by omega
  show (b.toUInt32 ||| 1 <<< UInt32.ofNat k).toUInt8.toBitVec.getLsbD j
    = (b.toBitVec.getLsbD j || decide (j = k))
  simp [hj, hk32]
  grind

theorem bit_clear (b : UInt8) {k j : ℕ} (hk : k < 8) (hj : j < 8) :
    (b.toUInt32 &&& ~~~(1 <<< UInt32.ofNat k)).toUInt8.toNat.testBit j
      = (b.toNat.testBit j && !decide (j = k)) := by
  have hk32 : k % 4294967296 % 32 = k := by omega
  show (b.toUInt32 &&& ~~~(1 <<< UInt32.ofNat k)).toUInt8.toBitVec.getLsbD j
    = (b.toBitVec.getLsbD j && !decide (j = k))
  simp [hj, hk32]
  grind

/-- The bits that are set, by byte and place. -/
def setBits (bitmap : Fin bitmapBytes → UInt8) : Finset (Fin bitmapBytes × Fin 8) :=
  Finset.univ.filter fun x => (bitmap x.1).toNat.testBit x.2

/-- The pages that are marked. -/
def used (bitmap : Fin bitmapBytes → UInt8) : Finset Page :=
  Finset.univ.filter fun p => (bitmap (byteOf p)).toNat.testBit (p % 8)

section Marks

variable (bitmap : Fin bitmapBytes → UInt8) (p q : Page)

@[simp] theorem mem_used : p ∈ used bitmap ↔ (bitmap (byteOf p)).toNat.testBit (p % 8) = true := by
  simp [used]

theorem isUsed_eq : isUsed bitmap p = if p ∈ used bitmap then 1 else 0 := by
  unfold isUsed bitOf
  rw [bit_used _ (Nat.mod_lt _ (by omega))]
  simp only [mem_used]

/-- A page is named by its byte and its place in it. -/
theorem page_eq_iff : q = p ↔ byteOf q = byteOf p ∧ (q : ℕ) % 8 = p % 8 := by
  rw [Fin.ext_iff, byteOf, byteOf, Fin.mk.injEq]
  omega

theorem used_markUsed : used (markUsed bitmap p) = insert p (used bitmap) := by
  apply Finset.ext
  intro q
  have hp : (p : ℕ) % 8 < 8 := Nat.mod_lt _ (by omega)
  have hq : (q : ℕ) % 8 < 8 := Nat.mod_lt _ (by omega)
  rw [Finset.mem_insert, page_eq_iff, mem_used, mem_used, markUsed]
  by_cases hbyte : byteOf q = byteOf p
  · rw [hbyte, Function.update_self, bitOf, bit_set _ hp hq]
    simp [or_comm]
  · rw [Function.update_of_ne hbyte]
    simp [hbyte]

theorem used_markFree : used (markFree bitmap p) = (used bitmap).erase p := by
  apply Finset.ext
  intro q
  have hp : (p : ℕ) % 8 < 8 := Nat.mod_lt _ (by omega)
  have hq : (q : ℕ) % 8 < 8 := Nat.mod_lt _ (by omega)
  rw [Finset.mem_erase, ne_eq, page_eq_iff, mem_used, mem_used, markFree]
  by_cases hbyte : byteOf q = byteOf p
  · rw [hbyte, Function.update_self, bitOf, bit_clear _ hp hq]
    simp [and_comm]
  · rw [Function.update_of_ne hbyte]
    simp [hbyte]

/-- Page `p` is bit `p % 8` of byte `p / 8`. -/
def pageEquiv : Fin bitmapBytes × Fin 8 ≃ Page := finProdFinEquiv

theorem pageEquiv_val (x : Fin bitmapBytes × Fin 8) : (pageEquiv x : ℕ) = x.2 + 8 * x.1 := rfl

theorem card_setBits : (setBits bitmap).card = (used bitmap).card := by
  apply Finset.card_equiv pageEquiv
  intro x
  have hbyte : byteOf (pageEquiv x) = x.1 := by
    apply Fin.ext
    simp only [byteOf, pageEquiv_val]
    omega
  have hbit : (pageEquiv x : ℕ) % 8 = x.2 := by
    rw [pageEquiv_val]
    omega
  rw [mem_used, hbyte, hbit]
  simp [setBits]

end Marks

/-! ## One call -/

/-- The counter is the number of bits that are set. -/
def Counts (s : Pmm) : Prop := s.usedCount.toNat = (used s.bitmap).card

theorem card_used_le (bitmap : Fin bitmapBytes → UInt8) : (used bitmap).card ≤ totalPages := by
  have hle := Finset.card_le_univ (used bitmap)
  rwa [Fintype.card_fin] at hle

theorem Counts.mark {s : Pmm} (h : Counts s) {p : Page} (hp : p ∉ used s.bitmap) :
    Counts ⟨markUsed s.bitmap p, s.usedCount + 1⟩ := by
  unfold Counts at h ⊢
  have hle := card_used_le (markUsed s.bitmap p)
  rw [used_markUsed, Finset.card_insert_of_notMem hp] at hle ⊢
  rw [UInt32.toNat_add, h]
  exact Nat.mod_eq_of_lt (lt_of_le_of_lt hle (by decide))

theorem Counts.release {s : Pmm} (h : Counts s) {p : Page} (hp : p ∈ used s.bitmap) :
    Counts ⟨markFree s.bitmap p, s.usedCount - 1⟩ := by
  unfold Counts at h ⊢
  have hpos := Finset.card_pos.2 ⟨p, hp⟩
  have hle := card_used_le s.bitmap
  have hbound : totalPages < 4294967296 := by decide
  rw [used_markFree, Finset.card_erase_of_mem hp, UInt32.toNat_sub, h, UInt32.toNat_one]
  omega

/-- A page that is not marked becomes marked and its address is returned; else all are, and nothing
changes. -/
theorem allocFrom_cases (s : Pmm) (pages : List Page) :
    (∃ p ∈ pages, p ∉ used s.bitmap ∧
      allocFrom s pages = (⟨markUsed s.bitmap p, s.usedCount + 1⟩, address p)) ∨
    (∀ p ∈ pages, p ∈ used s.bitmap) ∧ allocFrom s pages = (s, 0) := by
  induction pages with
  | nil => exact .inr ⟨by simp, rfl⟩
  | cons i rest ih =>
    unfold allocFrom
    rw [isUsed_eq]
    by_cases hi : i ∈ used s.bitmap
    · rw [if_pos hi, if_neg (by decide)]
      rcases ih with ⟨p, hp, hfree, halloc⟩ | ⟨hall, halloc⟩
      · exact .inl ⟨p, List.mem_cons_of_mem i hp, hfree, halloc⟩
      · exact .inr ⟨List.forall_mem_cons.2 ⟨hi, hall⟩, halloc⟩
    · rw [if_neg hi, if_pos (by decide)]
      exact .inl ⟨i, List.mem_cons_self, hi, rfl⟩

theorem allocPage_cases (s : Pmm) :
    (∃ p, p ∉ used s.bitmap ∧
      pmmAllocPage s = (⟨markUsed s.bitmap p, s.usedCount + 1⟩, address p)) ∨
    (∀ p, p ∈ used s.bitmap) ∧ pmmAllocPage s = (s, 0) := by
  rcases allocFrom_cases s (List.finRange totalPages) with ⟨p, -, hfree, halloc⟩ | ⟨hall, halloc⟩
  · exact .inl ⟨p, hfree, halloc⟩
  · exact .inr ⟨fun p => hall p (List.mem_finRange p), halloc⟩

-- The loop is over all pages: nothing below is to unfold it.
attribute [irreducible] pmmAllocPage

theorem used_allocPage (s : Pmm) {p : Page} (hp : p ∈ used s.bitmap) :
    p ∈ used (pmmAllocPage s).1.bitmap := by
  rcases allocPage_cases s with ⟨q, -, halloc⟩ | ⟨-, halloc⟩
  · rw [halloc]
    show p ∈ used (markUsed s.bitmap q)
    rw [used_markUsed]
    exact Finset.mem_insert_of_mem hp
  · rwa [halloc]

/-- The page that holds the address is released if it is marked; else nothing changes. -/
theorem freePage_cases (s : Pmm) (phys : UInt32) :
    (∃ p : Page, (p : ℕ) = phys.toNat / 4096 ∧ p ∈ used s.bitmap ∧
      pmmFreePage s phys = ⟨markFree s.bitmap p, s.usedCount - 1⟩) ∨
    (∀ p : Page, (p : ℕ) = phys.toNat / 4096 → p ∉ used s.bitmap) ∧ pmmFreePage s phys = s := by
  unfold pmmFreePage
  simp only [UInt32.toNat_div, UInt32.reduceToNat, isUsed_eq]
  by_cases hp : phys.toNat / 4096 < totalPages
  · rw [dif_pos hp]
    by_cases hused : (⟨phys.toNat / 4096, hp⟩ : Page) ∈ used s.bitmap
    · rw [if_pos hused, if_pos (by decide)]
      exact .inl ⟨_, rfl, hused, rfl⟩
    · rw [if_neg hused, if_neg (by decide)]
      refine .inr ⟨?_, rfl⟩
      intro p hval
      rwa [show p = ⟨phys.toNat / 4096, hp⟩ from Fin.ext hval]
  · rw [dif_neg hp]
    refine .inr ⟨?_, rfl⟩
    intro p hval
    have hlt := p.2
    omega

/-! ## The start -/

theorem foldl_update {n : ℕ} (pages : List (Fin n)) (bitmap : Fin n → UInt8) {i : Fin n}
    (hi : i ∈ pages) : pages.foldl (fun b i => Function.update b i 0xFF) bitmap i = 0xFF := by
  induction pages using List.reverseRecOn with
  | nil => simp at hi
  | append_singleton pages j ih =>
    rw [List.foldl_append, List.foldl_cons, List.foldl_nil]
    by_cases hij : i = j
    · rw [hij, Function.update_self]
    · rw [Function.update_of_ne hij]
      rcases List.mem_append.1 hi with hmem | hmem
      · exact ih hmem
      · exact absurd (List.mem_singleton.1 hmem) hij

/-- The loop releases marked pages, all of the list outside the display memory. -/
theorem initPages_spec (pages : List Page) {s : Pmm} (hcounts : Counts s) (hnodup : pages.Nodup)
    (hall : ∀ p ∈ pages, p ∈ used s.bitmap) :
    Counts (pages.foldl initPage s) ∧ ∀ q, q ∈ used (pages.foldl initPage s).bitmap ↔
      q ∈ used s.bitmap ∧ (q ∈ pages → 0xA0 ≤ q.val ∧ q.val ≤ 0xBF) := by
  induction pages generalizing s with
  | nil => exact ⟨hcounts, by simp⟩
  | cons p pages ih =>
    obtain ⟨hp, hnodup⟩ := List.nodup_cons.1 hnodup
    rw [List.foldl_cons]
    by_cases hvga : 0xA0 ≤ p.val ∧ p.val ≤ 0xBF
    · have hstep : initPage s p = s := if_pos hvga
      rw [hstep]
      refine (ih hcounts hnodup fun q hq => hall q (List.mem_cons_of_mem p hq)).imp_right ?_
      intro hrest q
      rw [hrest, List.mem_cons]
      by_cases hq : q = p
      · simp [hq, hp, hvga]
      · simp [hq]
    · have hstep : initPage s p = ⟨markFree s.bitmap p, s.usedCount - 1⟩ := if_neg hvga
      rw [hstep]
      have hmem := hall p List.mem_cons_self
      refine (ih (hcounts.release hmem) hnodup ?_).imp_right ?_
      · intro q hq
        rw [used_markFree]
        exact Finset.mem_erase.2 ⟨fun h => hp (h ▸ hq), hall q (List.mem_cons_of_mem p hq)⟩
      · intro hrest q
        rw [hrest, used_markFree, Finset.mem_erase, List.mem_cons]
        by_cases hq : q = p
        · simp [hq, hvga]
        · simp [hq]

/-- The pages that are never handed out: those of the kernel and of the display memory. -/
def reserved (kernelEnd : UInt32) : Finset Page :=
  Finset.univ.filter fun p =>
    p.val * 4096 < kernelEnd.toNat ∨ 0xA0 ≤ p.val ∧ p.val ≤ 0xBF

theorem mem_drop_finRange {n k : ℕ} {i : Fin n} : i ∈ (List.finRange n).drop k ↔ k ≤ i := by
  rw [List.mem_drop_iff_getElem]
  simp only [List.length_finRange, List.getElem_finRange, Fin.ext_iff, Fin.val_cast]
  constructor
  · rintro ⟨j, -, hj⟩
    omega
  · intro hk
    exact ⟨i - k, by omega, by omega⟩

theorem init_spec (s : Pmm) {kernelEnd : UInt32} (hend : kernelEnd.toNat < 32 * 1024 * 1024) :
    Counts (pmmInit s kernelEnd) ∧ used (pmmInit s kernelEnd).bitmap = reserved kernelEnd := by
  have hbitmap (i : Fin bitmapBytes) := foldl_update _ s.bitmap (List.mem_finRange i)
  have hfirst : ((kernelEnd + 4096 - 1) / 4096).toNat = (kernelEnd.toNat + 4095) / 4096 := by
    rw [UInt32.toNat_div, UInt32.toNat_sub, UInt32.toNat_add]
    simp only [UInt32.reduceToNat]
    omega
  unfold pmmInit
  dsimp only
  rw [hfirst]
  generalize (List.finRange bitmapBytes).foldl (fun b i => Function.update b i 0xFF) s.bitmap
    = bitmap at hbitmap ⊢
  have hall (p : Page) : p ∈ used bitmap := by
    have hbyte : ∀ k < 8, (0xFF : UInt8).toNat.testBit k = true := by decide
    rw [mem_used, hbitmap]
    exact hbyte _ (Nat.mod_lt _ (by omega))
  have hstart : Counts ⟨bitmap, 8192⟩ := by
    unfold Counts
    rw [Finset.eq_univ_iff_forall.2 hall, Finset.card_univ, Fintype.card_fin]
    rfl
  have hnodup := (List.nodup_finRange totalPages).sublist
    (List.drop_sublist ((kernelEnd.toNat + 4095) / 4096) _)
  refine (initPages_spec _ hstart hnodup fun p _ => hall p).imp_right ?_
  intro hused
  apply Finset.ext
  intro q
  rw [hused, mem_drop_finRange, reserved, Finset.mem_filter]
  simp only [hall, Finset.mem_univ, true_and]
  omega

/-! ## Runs -/

inductive Call
  | allocPage
  | freePage (phys : UInt32)

def step (s : Pmm) : Call → Pmm
  | .allocPage => (pmmAllocPage s).1
  | .freePage phys => pmmFreePage s phys

theorem step_counts {s : Pmm} (h : Counts s) (call : Call) : Counts (step s call) := by
  cases call with
  | allocPage =>
    show Counts (pmmAllocPage s).1
    rcases allocPage_cases s with ⟨p, hp, halloc⟩ | ⟨-, halloc⟩
    · rw [halloc]
      exact h.mark hp
    · rw [halloc]
      exact h
  | freePage phys =>
    show Counts (pmmFreePage s phys)
    rcases freePage_cases s phys with ⟨p, -, hp, hfree⟩ | ⟨-, hfree⟩
    · rw [hfree]
      exact h.release hp
    · rwa [hfree]

theorem run_counts {s : Pmm} (h : Counts s) (calls : List Call) : Counts (calls.foldl step s) := by
  induction calls generalizing s with
  | nil => exact h
  | cons call calls ih => exact ih (step_counts h call)

/-- The states that are reached where only held pages are freed, with the addresses that are held.
-/
inductive Holds (kernelEnd : UInt32) : Pmm → Finset UInt32 → Prop
  | init (s : Pmm) : Holds kernelEnd (pmmInit s kernelEnd) ∅
  | allocPage {s held} : Holds kernelEnd s held → (pmmAllocPage s).2 ≠ 0 →
      Holds kernelEnd (pmmAllocPage s).1 (insert (pmmAllocPage s).2 held)
  | outOfMemory {s held} : Holds kernelEnd s held → (pmmAllocPage s).2 = 0 →
      Holds kernelEnd (pmmAllocPage s).1 held
  | freePage {s held} {a phys : UInt32} : Holds kernelEnd s held → a ∈ held →
      phys.toNat / 4096 = a.toNat / 4096 →
      Holds kernelEnd (pmmFreePage s phys) (held.erase a)

/-- The address of a page that may be handed out. -/
structure Usable (kernelEnd a : UInt32) : Prop where
  aligned : 4096 ∣ a.toNat
  inMemory : a.toNat < 32 * 1024 * 1024
  aboveKernel : (kernelEnd.toNat + 4095) / 4096 * 4096 ≤ a.toNat
  notDisplay : ¬(0xA0000 ≤ a.toNat ∧ a.toNat ≤ 0xBFFFF)

theorem address_toNat (p : Page) : (address p).toNat = p * 4096 := by
  have hp := p.2
  unfold address
  rw [UInt32.toNat_ofNat', pageSize]
  unfold totalPages at hp
  omega

theorem address_injective : Function.Injective address := by
  intro p q h
  have hnat := congrArg UInt32.toNat h
  rw [address_toNat, address_toNat] at hnat
  apply Fin.ext
  omega

theorem usable_address {kernelEnd : UInt32} {p : Page} :
    Usable kernelEnd (address p) ↔ p ∉ reserved kernelEnd := by
  have hp := p.2
  have haddress := address_toNat p
  unfold totalPages at hp
  rw [reserved, Finset.mem_filter]
  simp only [Finset.mem_univ, true_and]
  constructor
  · intro h
    have habove := h.aboveKernel
    have hdisplay := h.notDisplay
    omega
  · intro h
    exact ⟨by omega, by omega, by omega, by omega⟩

theorem Usable.exists_page {kernelEnd a : UInt32} (h : Usable kernelEnd a) :
    ∃ p, address p = a := by
  have hmemory := h.inMemory
  have hdvd := h.aligned
  refine ⟨⟨a.toNat / 4096, by unfold totalPages; omega⟩, ?_⟩
  apply UInt32.toNat_inj.1
  rw [address_toNat]
  exact Nat.div_mul_cancel hdvd

/-- Page 0 is the kernel's, so that no page is mistaken for the lack of one. -/
theorem address_ne_zero {kernelEnd : UInt32} (hpos : 0 < kernelEnd.toNat) {p : Page}
    (hp : p ∉ reserved kernelEnd) : address p ≠ 0 := by
  intro hzero
  have habove := (usable_address.2 hp).aboveKernel
  rw [hzero] at habove
  simp only [UInt32.reduceToNat] at habove
  omega

/-- The marked pages are the reserved ones and the held ones. -/
structure Splits (kernelEnd : UInt32) (s : Pmm) (held : Finset UInt32) (pages : Finset Page) :
    Prop where
  held_eq : held = pages.image address
  used_eq : used s.bitmap = reserved kernelEnd ∪ pages
  apart : Disjoint (reserved kernelEnd) pages

variable {kernelEnd : UInt32} {s : Pmm} {held : Finset UInt32}

theorem Holds.splits (hpos : 0 < kernelEnd.toNat) (hend : kernelEnd.toNat < 32 * 1024 * 1024)
    (h : Holds kernelEnd s held) :
    ∃ pages, Splits kernelEnd s held pages := by
  induction h with
  | init s =>
    refine ⟨∅, rfl, ?_, Finset.disjoint_empty_right _⟩
    rw [(init_spec s hend).2, Finset.union_empty]
  | @allocPage s held hs hne ih =>
    obtain ⟨pages, hsplits⟩ := ih
    rcases allocPage_cases s with ⟨p, hp, halloc⟩ | ⟨-, halloc⟩
    · rw [halloc]
      rw [hsplits.used_eq, Finset.mem_union, not_or] at hp
      refine ⟨insert p pages, ?_, ?_, ?_⟩
      · rw [Finset.image_insert, hsplits.held_eq]
      · rw [used_markUsed, hsplits.used_eq, Finset.union_insert]
      · exact Finset.disjoint_insert_right.2 ⟨hp.1, hsplits.apart⟩
    · rw [halloc] at hne
      exact absurd rfl hne
  | @outOfMemory s held hs hzero ih =>
    rcases allocPage_cases s with ⟨p, hp, halloc⟩ | ⟨-, halloc⟩
    · obtain ⟨pages, hsplits⟩ := ih
      rw [halloc] at hzero
      rw [hsplits.used_eq, Finset.mem_union, not_or] at hp
      exact absurd hzero (address_ne_zero hpos hp.1)
    · rwa [halloc]
  | @freePage s held a phys hs ha hphys ih =>
    obtain ⟨pages, hsplits⟩ := ih
    have hmem := ha
    rw [hsplits.held_eq, Finset.mem_image] at hmem
    obtain ⟨p, hp, rfl⟩ := hmem
    have hval : (p : ℕ) = phys.toNat / 4096 := by
      rw [hphys, address_toNat]
      omega
    have hused : p ∈ used s.bitmap := by
      rw [hsplits.used_eq]
      exact Finset.mem_union_right _ hp
    have hfree : pmmFreePage s phys = ⟨markFree s.bitmap p, s.usedCount - 1⟩ := by
      rcases freePage_cases s phys with ⟨q, hq, -, hfree⟩ | ⟨hnone, -⟩
      · rwa [show p = q from Fin.ext (hval.trans hq.symm)]
      · exact absurd hused (hnone p hval)
    rw [hfree]
    refine ⟨pages.erase p, ?_, ?_, hsplits.apart.mono_right (Finset.erase_subset p pages)⟩
    · rw [Finset.image_erase address_injective, hsplits.held_eq]
    · rw [used_markFree, hsplits.used_eq, Finset.erase_union_distrib,
        Finset.erase_eq_of_notMem (Finset.disjoint_right.1 hsplits.apart hp)]

theorem allocPage_spec (hpos : 0 < kernelEnd.toNat) (hend : kernelEnd.toNat < 32 * 1024 * 1024)
    (h : Holds kernelEnd s held) :
    ((pmmAllocPage s).2 ≠ 0 →
      (pmmAllocPage s).2 ∉ held ∧ Usable kernelEnd (pmmAllocPage s).2) ∧
    ((pmmAllocPage s).2 = 0 ↔ ∀ a, Usable kernelEnd a → a ∈ held) := by
  obtain ⟨pages, hsplits⟩ := h.splits hpos hend
  rcases allocPage_cases s with ⟨p, hp, halloc⟩ | ⟨hall, halloc⟩
  · rw [hsplits.used_eq, Finset.mem_union, not_or] at hp
    have hheld : address p ∉ held := by
      rw [hsplits.held_eq, address_injective.mem_finset_image]
      exact hp.2
    have husable := usable_address.2 hp.1
    rw [halloc]
    refine ⟨fun _ => ⟨hheld, husable⟩, ?_⟩
    constructor
    · intro hzero
      exact absurd hzero (address_ne_zero hpos hp.1)
    · intro hfull
      exact absurd (hfull _ husable) hheld
  · rw [halloc]
    refine ⟨fun hne => absurd rfl hne, ?_⟩
    simp only [true_iff]
    intro a ha
    obtain ⟨p, rfl⟩ := ha.exists_page
    have hmem := hall p
    rw [hsplits.used_eq, Finset.mem_union] at hmem
    rw [hsplits.held_eq, address_injective.mem_finset_image]
    exact hmem.resolve_left (usable_address.1 ha)

/-- In every run from `pmm_init`. The first part is for any calls; in the second one only held pages
are freed. -/
theorem pmm_runs (hpos : 0 < kernelEnd.toNat) (hend : kernelEnd.toNat < 32 * 1024 * 1024) :
    (∀ (s : Pmm) (calls : List Call), let s := calls.foldl step (pmmInit s kernelEnd)
      s.usedCount.toNat = (setBits s.bitmap).card ∧
      (pmmUsedPages s).toNat + (pmmFreePages s).toNat = pmmTotalPages.toNat) ∧
    ∀ s held, Holds kernelEnd s held →
      ((pmmAllocPage s).2 ≠ 0 →
        (pmmAllocPage s).2 ∉ held ∧ Usable kernelEnd (pmmAllocPage s).2) ∧
      ((pmmAllocPage s).2 = 0 ↔ ∀ a, Usable kernelEnd a → a ∈ held) := by
  refine ⟨?_, fun s held h => allocPage_spec hpos hend h⟩
  intro s calls
  dsimp only
  have hcounts := run_counts (init_spec s hend).1 calls
  generalize calls.foldl step (pmmInit s kernelEnd) = t at hcounts ⊢
  have hle := card_used_le t.bitmap
  have htotal : totalPages = 8192 := rfl
  unfold Counts at hcounts
  refine ⟨by rw [hcounts, card_setBits], ?_⟩
  unfold pmmUsedPages pmmFreePages pmmTotalPages
  rw [UInt32.toNat_sub]
  simp only [UInt32.reduceToNat]
  omega

/-- A kernel that ends at 1 MB, and a page that is freed twice. -/
theorem pmm_runs_oneMegabyte :
    let start := pmmInit ⟨fun _ => 0, 0⟩ 0x100000
    let s := [Call.allocPage, .freePage 0x100000, .freePage 0x100000].foldl step start
    s.usedCount.toNat = (setBits s.bitmap).card ∧
    ((pmmAllocPage start).2 = 0 ↔ ∀ a, Usable 0x100000 a → a ∈ (∅ : Finset UInt32)) := by
  have h := @pmm_runs 0x100000 (by decide) (by decide)
  exact ⟨(h.1 _ _).1, (h.2 _ _ (.init _)).2⟩

end MinervaOS.Memory
