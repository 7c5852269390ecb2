import MinervaOS.Heap.Blocks

/-!
# The loops of the allocator

On blocks that tile the heap, the search of `kmalloc` finds the first of the smallest free blocks
that are large enough, and the loop of `kfree` merges free neighbours. Both end within one step more
than there are blocks. What lies in a block that is in use stays.
-/

namespace MinervaOS.Heap

variable {a e q x v : ℕ} {b c : Block} {bs cs : List Block} {m m' : Bytes} {top : ℕ}

/-! ## Writing a header -/

theorem setSize_of_not (h : x < a ∨ a + headerSize ≤ x) : setSize m a v x = m x :=
  write32_of_not (by rw [headerSize] at h; omega)

theorem setInUse_of_not {v : UInt8} (h : x < a ∨ a + headerSize ≤ x) : setInUse m a v x = m x :=
  write8_of_ne (by rw [headerSize] at h; omega)

theorem setNext_of_not (h : x < a ∨ a + headerSize ≤ x) : setNext m a v x = m x :=
  write32_of_not (by rw [headerSize] at h; omega)

theorem size_setSize (h : v < 2 ^ 32) : size (setSize m a v) a = v := read32_write32 h

theorem next_setNext (h : v < 2 ^ 32) : next (setNext m a v) a = v := read32_write32 h

theorem inUse_setInUse (v : UInt8) : inUse (setInUse m a v) a = (v != 0) := by
  rw [inUse, setInUse, write8_self]

@[simp] theorem inUse_setSize : inUse (setSize m a v) a = inUse m a := by
  rw [inUse, setSize, write32_of_not (by omega), inUse]

@[simp] theorem next_setSize : next (setSize m a v) a = next m a :=
  read32_congr fun x h _ => write32_of_not (by omega)

@[simp] theorem size_setInUse {v : UInt8} : size (setInUse m a v) a = size m a :=
  read32_congr fun x _ h => write8_of_ne (by omega)

@[simp] theorem next_setInUse {v : UInt8} : next (setInUse m a v) a = next m a :=
  read32_congr fun x h _ => write8_of_ne (by omega)

@[simp] theorem size_setNext : size (setNext m a v) a = size m a :=
  read32_congr fun x _ h => write32_of_not (by omega)

@[simp] theorem inUse_setNext : inUse (setNext m a v) a = inUse m a := by
  rw [inUse, setNext, write32_of_not (by omega), inUse]

/-- What is read of a header is in its twelve bytes. -/
theorem header_congr (m m' : Bytes) (h : ∀ x, a ≤ x → x < a + headerSize → m' x = m x) :
    size m' a = size m a ∧ inUse m' a = inUse m a ∧ next m' a = next m a := by
  rw [headerSize] at h
  refine ⟨read32_congr fun x hx hx' => h x hx (by omega), ?_,
    read32_congr fun x hx hx' => h x (by omega) (by omega)⟩
  rw [inUse, inUse, h (a + 4) (by omega) (by omega)]

/-! ## The search -/

/-- A free block that is large enough. -/
def Sufficient (n : ℕ) (c : Block) : Prop := c.inUse = false ∧ n ≤ c.size

theorem link_of_lt (h : a < top) : link top a = a := if_neg (Nat.ne_of_lt h)

theorem lt_of_tiles (h : Tiles m top a (b :: bs) e) : a < e := by
  rw [tiles_extent h, extent_cons, headerSize]
  omega

/-- What the search has in the end: what it has begun with, when no block improves on it, or the
smallest sufficient block. -/
theorem findBest_spec {n steps : ℕ} (best bestSize : ℕ) (ha : 0 < a) (ht : Tiles m top a bs top)
    (hsteps : bs.length < steps) :
    ∃ r s, findBest m n steps (link top a) best bestSize = some (r, s) ∧
      ((r = best ∧ s = bestSize ∧
          ∀ q c, (q, c) ∈ placed a bs → Sufficient n c → bestSize ≤ c.size) ∨
        ∃ c, (r, c) ∈ placed a bs ∧ Sufficient n c ∧ s = c.size ∧ c.size < bestSize ∧
          ∀ q d, (q, d) ∈ placed a bs → Sufficient n d → c.size ≤ d.size) := by
  induction bs generalizing a steps best bestSize with
  | nil =>
    obtain ⟨steps, rfl⟩ : ∃ k, steps = k + 1 := ⟨steps - 1, by simp at hsteps; omega⟩
    rw [show a = top from ht, link, if_pos rfl, findBest, if_pos rfl]
    exact ⟨best, bestSize, rfl, .inl ⟨rfl, rfl, fun _ _ h => absurd h List.not_mem_nil⟩⟩
  | cons b bs ih =>
    rw [List.length_cons] at hsteps
    obtain ⟨steps, rfl⟩ : ∃ k, steps = k + 1 := ⟨steps - 1, by omega⟩
    have hlt := lt_of_tiles ht
    obtain ⟨hsize, huse, hnext, htail⟩ := ht
    rw [link_of_lt hlt, findBest, if_neg (by omega), hsize, huse, hnext]
    split
    next hbetter =>
      simp only [Bool.and_eq_true, Bool.not_eq_true', decide_eq_true_eq] at hbetter
      obtain ⟨⟨hfree, hn⟩, hless⟩ := hbetter
      obtain ⟨r, s, hrun, hrs⟩ := ih a b.size (by omega) htail
        (by omega : bs.length < steps)
      refine ⟨r, s, hrun, .inr ?_⟩
      rcases hrs with ⟨rfl, rfl, hmin⟩ | ⟨c, hc, hsuff, rfl, hcb, hmin⟩
      · refine ⟨b, List.mem_cons_self, ⟨hfree, hn⟩, rfl, hless, fun q d hd hsuff => ?_⟩
        rcases List.mem_cons.1 hd with hd | hd
        · rw [(Prod.mk.inj hd).2]
        · exact hmin q d hd hsuff
      · refine ⟨c, List.mem_cons_of_mem _ hc, hsuff, rfl, by omega, fun q d hd hsuff => ?_⟩
        rcases List.mem_cons.1 hd with hd | hd
        · rw [(Prod.mk.inj hd).2]
          omega
        · exact hmin q d hd hsuff
    next hworse =>
      have hb (hsuff : Sufficient n b) : bestSize ≤ b.size := by
        by_contra hlt
        exact hworse (by rw [hsuff.1, decide_eq_true hsuff.2, decide_eq_true (by omega)]; rfl)
      obtain ⟨r, s, hrun, hrs⟩ := ih best bestSize (by omega) htail
        (by omega : bs.length < steps)
      refine ⟨r, s, hrun, ?_⟩
      rcases hrs with ⟨rfl, rfl, hmin⟩ | ⟨c, hc, hsuff, rfl, hcb, hmin⟩
      · refine .inl ⟨rfl, rfl, fun q d hd hsuff => ?_⟩
        rcases List.mem_cons.1 hd with hd | hd
        · rw [(Prod.mk.inj hd).2] at hsuff ⊢
          exact hb hsuff
        · exact hmin q d hd hsuff
      · refine .inr ⟨c, List.mem_cons_of_mem _ hc, hsuff, rfl, hcb, fun q d hd hsuff => ?_⟩
        rcases List.mem_cons.1 hd with hd | hd
        · rw [(Prod.mk.inj hd).2] at hsuff ⊢
          have := hb hsuff
          omega
        · exact hmin q d hd hsuff

/-! ## Merging in memory -/

/-- The blocks in use keep their bytes, the header with them. -/
def KeepsUsed (a : ℕ) (bs : List Block) (m m' : Bytes) : Prop :=
  ∀ q c, (q, c) ∈ placed a bs → c.inUse = true →
    ∀ x, q ≤ x → x < q + headerSize + c.size → m' x = m x

theorem link_lt {p : ℕ} (htop : top ≤ 2 ^ 32) (hp : p ≤ top) : link top p < 2 ^ 32 := by
  rw [link]
  split <;> omega

/-- A free block takes in the one behind it. -/
theorem takeIn_spec (a' : ℕ) {n p : ℕ} (hnext : next m a = a') (ha' : a + headerSize ≤ a')
    (hn : size m a + (headerSize + size m a') = n) (hp : next m a' = p) (hn32 : n < 2 ^ 32)
    (hp32 : p < 2 ^ 32) :
    ∃ m', (let m₁ := setSize m a (size m a + (headerSize + size m (next m a)))
        setNext m₁ a (next m₁ (next m₁ a))) = m' ∧
      size m' a = n ∧ inUse m' a = inUse m a ∧ next m' a = p ∧
      ∀ x, x < a ∨ a + headerSize ≤ x → m' x = m x := by
  have hp' : next (setSize m a n) a' = p := by
    rw [← hp]
    exact (header_congr _ _ fun x hx _ => setSize_of_not (.inr (by omega))).2.2
  refine ⟨setNext (setSize m a n) a p, ?_, ?_, ?_, next_setNext hp32, fun x hx => ?_⟩
  · simp only [next_setSize, hnext, hn, hp']
  · rw [size_setNext, size_setSize hn32]
  · rw [inUse_setNext, inUse_setSize]
  · rw [setNext_of_not hx, setSize_of_not hx]

/-- A step behind a block leaves the block, and what the rest of the loop does is what the whole of
it does there. -/
theorem coalesceFrom_skip {steps : ℕ} (ha : 0 < a) (ht : Tiles m top a (b :: bs) top)
    (hskip : (!inUse m a && next m a != 0 && !inUse m (next m a)) = false)
    (hmerge : merge (b :: bs) = b :: merge bs)
    (ih : ∃ m', coalesceFrom steps m (link top (a + headerSize + b.size)) = some m' ∧
      Tiles m' top (a + headerSize + b.size) (merge bs) top ∧
      KeepsUsed (a + headerSize + b.size) bs m m' ∧
      ∀ x, x < a + headerSize + b.size ∨ top ≤ x → m' x = m x) :
    ∃ m', coalesceFrom (steps + 1) m (link top a) = some m' ∧ Tiles m' top a (merge (b :: bs)) top ∧
      KeepsUsed a (b :: bs) m m' ∧ ∀ x, x < a ∨ top ≤ x → m' x = m x := by
  have hlt := lt_of_tiles ht
  obtain ⟨hsize, huse, hnext, htail⟩ := ht
  obtain ⟨m', hrun, hm', hkeeps, hout⟩ := ih
  obtain ⟨hsize', huse', hnext'⟩ := header_congr (a := a) m m'
    fun x _ hx => hout x (.inl (by omega))
  refine ⟨m', ?_, ?_, ?_, fun x hx => hout x (by omega)⟩
  · rw [link_of_lt hlt, coalesceFrom, if_neg (by omega), hskip, if_neg Bool.false_ne_true, hnext,
      hrun]
  · rw [hmerge]
    exact ⟨hsize'.trans hsize, huse'.trans huse, hnext'.trans hnext, hm'⟩
  · intro q c hc huse x hx hx'
    rcases List.mem_cons.1 hc with hc | hc
    · obtain ⟨rfl, rfl⟩ := Prod.mk.inj hc
      exact hout x (.inl hx')
    · exact hkeeps q c hc huse x hx hx'

theorem coalesceFrom_spec {steps : ℕ} (ha : 0 < a) (htop : top ≤ 2 ^ 32)
    (ht : Tiles m top a bs top) (hsteps : bs.length < steps) :
    ∃ m', coalesceFrom steps m (link top a) = some m' ∧ Tiles m' top a (merge bs) top ∧
      KeepsUsed a bs m m' ∧ ∀ x, x < a ∨ top ≤ x → m' x = m x := by
  induction steps generalizing m a bs with
  | zero => omega
  | succ steps ih =>
    match bs with
    | [] =>
      rw [show a = top from ht, link, if_pos rfl, coalesceFrom, if_pos rfl]
      refine ⟨m, rfl, ?_, fun _ _ h => absurd h List.not_mem_nil, fun _ _ => rfl⟩
      rw [merge]
      · rfl
      · simp
    | [b] =>
      have hend : a + headerSize + b.size = top := ht.2.2.2
      refine coalesceFrom_skip ha ht ?_ ?_ (ih (by omega) ht.2.2.2 (by simp at hsteps ⊢; omega))
      · rw [ht.2.2.1, link, if_pos hend]
        simp
      · rw [merge, merge]
        · simp
        · simp
    | b :: c :: bs =>
      have hlt := lt_of_tiles ht
      have htail := ht.2.2.2
      have hlt' := lt_of_tiles htail
      have hnext := ht.2.2.1
      rw [link_of_lt hlt'] at hnext
      simp only [List.length_cons] at hsteps
      by_cases hused : b.inUse ∨ c.inUse
      · refine coalesceFrom_skip ha ht ?_ (merge_used hused)
          (ih (by omega) htail (by rw [List.length_cons]; omega))
        rw [hnext, ht.2.1, htail.2.1]
        rcases hused with h | h <;> simp [h]
      · -- Both are free: the first takes the second in, and the loop stays there.
        simp only [not_or, Bool.not_eq_true] at hused
        have hrest := htail.2.2.2
        have hext := tiles_extent hrest
        have hend : a + headerSize + (b.size + (headerSize + c.size)) =
            a + headerSize + b.size + headerSize + c.size := by omega
        have hlink := link_lt (p := a + headerSize + b.size + headerSize + c.size) htop (by omega)
        obtain ⟨m₂, hm₂, hsize₂, huse₂, hnext₂, hframe₂⟩ := takeIn_spec (m := m) (a := a)
          (n := b.size + (headerSize + c.size))
          (p := link top (a + headerSize + b.size + headerSize + c.size))
            (a + headerSize + b.size) hnext
          (by omega)
          (by rw [ht.1, htail.1]) htail.2.2.1 (by omega) hlink
        have ht₂ : Tiles m₂ top a (⟨b.size + (headerSize + c.size), false⟩ :: bs) top := by
          refine ⟨hsize₂, huse₂.trans (ht.2.1.trans hused.1), ?_, ?_⟩
          · rw [hnext₂, hend]
          · rw [hend]
            exact tiles_congr (fun x hx _ => hframe₂ x (.inr (by omega))) hrest
        obtain ⟨m', hrun, hm', hkeeps, hout⟩ := ih ha ht₂ (by rw [List.length_cons]; omega)
        rw [link_of_lt hlt] at hrun ⊢
        refine ⟨m', ?_, ?_, ?_, fun x hx => (hout x hx).trans (hframe₂ x (by omega))⟩
        · rw [← hm₂] at hrun
          rw [coalesceFrom, if_neg (by omega), if_pos]
          · exact hrun
          · rw [hnext, ht.2.1, htail.2.1, hused.1, hused.2]
            simp
            omega
        · rwa [merge_free hused.1 hused.2]
        · intro q d hd huse x hx hx'
          have hd' : (q, d) ∈ placed (a + headerSize + b.size + headerSize + c.size) bs := by
            rcases List.mem_cons.1 hd with hd | hd
            · rw [(Prod.mk.inj hd).2, hused.1] at huse
              exact absurd huse (by decide)
            rcases List.mem_cons.1 hd with hd | hd
            · rw [(Prod.mk.inj hd).2, hused.2] at huse
              exact absurd huse (by decide)
            · exact hd
          have hbounds := placed_bounds hd'
          rw [hkeeps q d (List.mem_cons_of_mem _ (by rwa [hend])) huse x hx hx']
          exact hframe₂ x (.inr (by omega))

end MinervaOS.Heap
