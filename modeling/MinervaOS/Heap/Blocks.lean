import MinervaOS.Heap.Allocator
import Mathlib.Data.List.Chain

/-!
# The blocks of a heap

A heap is a list of blocks that lie behind one another. `placed` says where they are, `merge` is
what freeing makes of free neighbours. `Tiles` connects such a list with the headers in memory; it
depends on the memory that the blocks cover only, so a change within one block leaves the others.
-/

namespace MinervaOS.Heap

structure Block where
  size : ℕ
  inUse : Bool
  deriving DecidableEq

/-- The blocks with the addresses of their headers. -/
def placed : ℕ → List Block → List (ℕ × Block)
  | _, [] => []
  | a, b :: bs => (a, b) :: placed (a + headerSize + b.size) bs

/-- How much memory the blocks take. -/
def extent (bs : List Block) : ℕ := (bs.map fun b => headerSize + b.size).sum

/-- No two neighbours are both free. -/
def NoFreeNeighbours (bs : List Block) : Prop := bs.IsChain fun b c => b.inUse ∨ c.inUse

/-- Free neighbours become one. -/
def merge : List Block → List Block
  | b :: c :: bs =>
    if !b.inUse && !c.inUse then merge (⟨b.size + (headerSize + c.size), false⟩ :: bs)
    else b :: merge (c :: bs)
  | bs => bs
termination_by bs => bs.length

variable {a e q : ℕ} {b c : Block} {bs cs : List Block} {m m' : Bytes} {top : ℕ}

/-! ## Places -/

theorem extent_cons (b : Block) (bs : List Block) :
    extent (b :: bs) = headerSize + b.size + extent bs := by
  rw [extent, List.map_cons, List.sum_cons, extent]

theorem extent_append (bs cs : List Block) : extent (bs ++ cs) = extent bs + extent cs := by
  rw [extent, List.map_append, List.sum_append, extent, extent]

theorem placed_append (a : ℕ) (bs cs : List Block) :
    placed a (bs ++ cs) = placed a bs ++ placed (a + extent bs) cs := by
  induction bs generalizing a with
  | nil => rfl
  | cons b bs ih =>
    rw [List.cons_append, placed, ih, placed, List.cons_append, extent_cons]
    congr 3
    omega

/-- A block that is placed has blocks in front of it and behind it. -/
theorem split_of_placed (h : (q, c) ∈ placed a bs) :
    ∃ bs₁ bs₂, bs = bs₁ ++ c :: bs₂ ∧ q = a + extent bs₁ := by
  induction bs generalizing a with
  | nil => exact absurd h List.not_mem_nil
  | cons b bs ih =>
    rcases List.mem_cons.1 h with h | h
    · obtain ⟨rfl, rfl⟩ := Prod.mk.inj h
      exact ⟨[], bs, rfl, rfl⟩
    · obtain ⟨bs₁, bs₂, rfl, rfl⟩ := ih h
      exact ⟨b :: bs₁, bs₂, rfl, by rw [extent_cons]; omega⟩

theorem mem_placed_split (a : ℕ) (bs : List Block) (c : Block) (cs : List Block) :
    (a + extent bs, c) ∈ placed a (bs ++ c :: cs) := by
  rw [placed_append, placed]
  exact List.mem_append_right _ List.mem_cons_self

theorem placed_bounds (h : (q, c) ∈ placed a bs) :
    a ≤ q ∧ q + headerSize + c.size ≤ a + extent bs := by
  obtain ⟨bs₁, bs₂, rfl, rfl⟩ := split_of_placed h
  rw [extent_append, extent_cons]
  omega

/-- Blocks at different places do not overlap. -/
theorem placed_disjoint {q' : ℕ} {c' : Block} (h : (q, c) ∈ placed a bs)
    (h' : (q', c') ∈ placed a bs) :
    (q = q' ∧ c = c') ∨ q + headerSize + c.size ≤ q' ∨ q' + headerSize + c'.size ≤ q := by
  induction bs generalizing a with
  | nil => exact absurd h List.not_mem_nil
  | cons b bs ih =>
    rcases List.mem_cons.1 h with h | h <;> rcases List.mem_cons.1 h' with h' | h'
    · exact .inl (Prod.mk.inj (h.trans h'.symm))
    · obtain ⟨rfl, rfl⟩ := Prod.mk.inj h
      exact .inr (.inl (placed_bounds h').1)
    · obtain ⟨rfl, rfl⟩ := Prod.mk.inj h'
      exact .inr (.inr (placed_bounds h).1)
    · exact ih h h'

/-! ## Merging -/

theorem merge_free (hb : b.inUse = false) (hc : c.inUse = false) :
    merge (b :: c :: bs) = merge (⟨b.size + (headerSize + c.size), false⟩ :: bs) := by
  rw [merge, hb, hc]
  rfl

theorem merge_used (h : b.inUse ∨ c.inUse) : merge (b :: c :: bs) = b :: merge (c :: bs) := by
  rw [merge, if_neg]
  rcases h with h | h <;> simp [h]

/-- The first block may grow, but only a free one, and stays free. -/
theorem merge_cons (b : Block) (bs : List Block) :
    ∃ c cs, merge (b :: bs) = c :: cs ∧ c.inUse = b.inUse := by
  induction hn : bs.length generalizing b bs with
  | zero =>
    rw [List.length_eq_zero_iff.1 hn, merge]
    · exact ⟨b, [], rfl, rfl⟩
    · simp
  | succ n ih =>
    obtain ⟨c, cs, rfl⟩ := List.exists_cons_of_length_eq_add_one hn
    by_cases h : b.inUse ∨ c.inUse
    · exact ⟨b, _, merge_used h, rfl⟩
    · simp only [not_or, Bool.not_eq_true] at h
      rw [merge_free h.1 h.2]
      obtain ⟨d, ds, hd, huse⟩ := ih ⟨b.size + (headerSize + c.size), false⟩ cs (by simpa using hn)
      exact ⟨d, ds, hd, huse.trans h.1.symm⟩

theorem merge_noFreeNeighbours (bs : List Block) : NoFreeNeighbours (merge bs) := by
  induction bs using merge.induct with
  | case1 b c bs h ih =>
    simp only [Bool.and_eq_true, Bool.not_eq_true'] at h
    rwa [merge_free h.1 h.2]
  | case2 b c bs h ih =>
    have huse : b.inUse ∨ c.inUse := by
      by_contra hno
      simp only [not_or, Bool.not_eq_true] at hno
      exact h (by rw [hno.1, hno.2]; rfl)
    rw [merge_used huse]
    obtain ⟨d, ds, hd, hdc⟩ := merge_cons c bs
    rw [hd] at ih ⊢
    exact List.IsChain.cons_cons (by rwa [hdc]) ih
  | case3 bs h =>
    match bs, h with
    | [], _ =>
      rw [merge]
      · exact List.IsChain.nil
      · simp
    | [b], _ =>
      rw [merge]
      · exact List.IsChain.singleton b
      · simp
    | b :: c :: bs, h => exact absurd rfl (h b c bs)

/-- The blocks in use stay where they are. -/
theorem mem_placed_merge (hc : c.inUse = true) :
    (q, c) ∈ placed a (merge bs) ↔ (q, c) ∈ placed a bs := by
  induction bs using merge.induct generalizing a with
  | case1 b d bs h ih =>
    simp only [Bool.and_eq_true, Bool.not_eq_true'] at h
    have hfree {p : ℕ} {b' : Block} (hb : b'.inUse = false) : (q, c) ≠ (p, b') := by
      rintro hq
      rw [(Prod.mk.inj hq).2, hb] at hc
      exact absurd hc (by decide)
    rw [merge_free h.1 h.2, ih, placed, placed, placed, List.mem_cons, List.mem_cons, List.mem_cons,
      or_iff_right (hfree rfl), or_iff_right (hfree h.1), or_iff_right (hfree h.2)]
    simp only [Nat.add_assoc]
  | case2 b d bs h ih =>
    rw [merge, if_neg h, placed, List.mem_cons, ih]
    exact List.mem_cons.symm
  | case3 bs h =>
    rw [merge]
    exact h

/-! ## Memory -/

/-- The last block has no next one. -/
def link (top p : ℕ) : ℕ := if p = top then 0 else p

/-- The blocks lie in memory from one address to another, in a heap that ends at `top`. -/
def Tiles (m : Bytes) (top : ℕ) : ℕ → List Block → ℕ → Prop
  | a, [], e => a = e
  | a, b :: bs, e =>
    size m a = b.size ∧ inUse m a = b.inUse ∧ next m a = link top (a + headerSize + b.size) ∧
      Tiles m top (a + headerSize + b.size) bs e

theorem tiles_extent (h : Tiles m top a bs e) : e = a + extent bs := by
  induction bs generalizing a with
  | nil => exact h.symm
  | cons b bs ih =>
    rw [ih h.2.2.2, extent_cons]
    omega

theorem tiles_append :
    Tiles m top a (bs ++ cs) e ↔
      Tiles m top a bs (a + extent bs) ∧ Tiles m top (a + extent bs) cs e := by
  induction bs generalizing a with
  | nil => exact ⟨fun h => ⟨rfl, h⟩, fun h => h.2⟩
  | cons b bs ih =>
    have hext : a + extent (b :: bs) = a + headerSize + b.size + extent bs := by
      rw [extent_cons]
      omega
    rw [List.cons_append, Tiles, Tiles, ih, hext]
    tauto

theorem tiles_congr (h : ∀ x, a ≤ x → x < e → m' x = m x) (ht : Tiles m top a bs e) :
    Tiles m' top a bs e := by
  induction bs generalizing a with
  | nil => exact ht
  | cons b bs ih =>
    obtain ⟨hsize, huse, hnext, htail⟩ := ht
    have he := tiles_extent htail
    have hheader : a + headerSize ≤ e := by omega
    rw [headerSize] at hheader
    refine ⟨?_, ?_, ?_, ih (fun x hx => h x (by omega)) htail⟩
    · rw [← hsize]
      exact read32_congr fun x hx hx' => h x hx (by omega)
    · rw [← huse, inUse, inUse, h (a + 4) (by omega) (by omega)]
    · rw [← hnext]
      exact read32_congr fun x hx hx' => h x (by omega) (by omega)

end MinervaOS.Heap
