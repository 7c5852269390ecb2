import MinervaOS.Heap.Loops

/-!
# Runs of the allocator

A run calls `kmalloc` with any size and `kfree` with `NULL` or a live pointer, and its callers write
to live payloads as they like in between. `HeapOk` is what holds of a heap and its live pointers in
every run (`heapOk_run`): the blocks tile the heap, no two free ones are neighbours, and the blocks
in use are those of the live pointers.
-/

namespace MinervaOS.Heap

variable {base a e n p q x : ℕ} {b c : Block} {bs cs : List Block} {m : Bytes} {h h' : Heap}
  {live : List (ℕ × ℕ)}

/-- `live` has the pointers that have been returned and not freed, with the sizes asked for. -/
structure HeapOk (base : ℕ) (h : Heap) (live : List (ℕ × ℕ)) (bs : List Block) : Prop where
  list : h.freeList = base
  tiles : Tiles h.mem (base + heapSize) base bs (base + heapSize)
  apart : NoFreeNeighbours bs
  used : ∀ p n, (p, n) ∈ live →
    ∃ q c, p = q + headerSize ∧ (q, c) ∈ placed base bs ∧ c.inUse = true ∧ n ≤ c.size
  owned : ∀ q c, (q, c) ∈ placed base bs → c.inUse = true → ∃ n, (q + headerSize, n) ∈ live
  once : (live.map Prod.fst).Nodup

/-! ## Allocating -/

/-- What a block becomes when `n` bytes of it are handed out. -/
def carve (n : ℕ) (c : Block) : List Block :=
  if c.size - n > headerSize then [⟨n, true⟩, ⟨c.size - n - headerSize, false⟩]
  else [⟨c.size, true⟩]

theorem extent_carve (h : n ≤ c.size) : extent (carve n c) = headerSize + c.size := by
  rw [carve]
  split
  · simp only [extent, List.map_cons, List.map_nil, List.sum_cons, List.sum_nil]
    omega
  · simp only [extent, List.map_cons, List.map_nil, List.sum_cons, List.sum_nil]
    omega

theorem length_le_extent (bs : List Block) : headerSize * bs.length ≤ extent bs := by
  induction bs with
  | nil => exact Nat.zero_le _
  | cons b bs ih =>
    rw [List.length_cons, extent_cons, Nat.mul_succ]
    omega

/-- The loops have enough steps. -/
theorem length_lt_heapSize (h : Tiles m (base + heapSize) base bs (base + heapSize)) :
    bs.length < heapSize := by
  have hle := length_le_extent bs
  have hext := tiles_extent h
  rw [headerSize, heapSize] at *
  omega

/-- A new block behind the bytes that are handed out, as `kmalloc` writes it. -/
theorem newBlock_spec (q' : ℕ) {r v : ℕ} (hq : q + headerSize ≤ q') (hr : r < 2 ^ 32)
    (hv : next m q = v) (hv32 : v < 2 ^ 32) :
    ∃ m', (let m₁ := setSize m q' r
        let m₂ := setInUse m₁ q' 0
        setNext m₂ q' (next m₂ q)) = m' ∧
      size m' q' = r ∧ inUse m' q' = false ∧ next m' q' = v ∧
      ∀ x, x < q' ∨ q' + headerSize ≤ x → m' x = m x := by
  have hv' : next (setInUse (setSize m q' r) q' 0) q = v := by
    rw [← hv]
    refine (header_congr _ _ fun x _ hx => ?_).2.2
    rw [setInUse_of_not (.inl (by omega)), setSize_of_not (.inl (by omega))]
  refine ⟨setNext (setInUse (setSize m q' r) q' 0) q' v, ?_, ?_, ?_, next_setNext hv32,
    fun x hx => ?_⟩
  · simp only [hv']
  · rw [size_setNext, size_setInUse, size_setSize hr]
  · rw [inUse_setNext, inUse_setInUse]
    rfl
  · rw [setNext_of_not hx, setInUse_of_not hx, setSize_of_not hx]

/-- Carving the block at `q`, in memory. -/
theorem carve_spec {top : ℕ} (htop : top ≤ 2 ^ 32) (hc : Tiles m top q [c] e)
    (hend : e ≤ top) (hn : n ≤ c.size) :
    ∃ m', (let remaining := size m q - n
        let m :=
          if remaining > headerSize then
            let newBlock := q + headerSize + n
            let m := setSize m newBlock (remaining - headerSize)
            let m := setInUse m newBlock 0
            let m := setNext m newBlock (next m q)
            setNext (setSize m q n) q newBlock
          else m
        setInUse m q 1) = m' ∧
      Tiles m' top q (carve n c) e ∧ ∀ x, x < q ∨ e ≤ x → m' x = m x := by
  obtain ⟨hsize, huse, hnext, he⟩ := hc
  have he : q + headerSize + c.size = e := he
  have hh : headerSize = 12 := rfl
  simp only [hsize, carve]
  by_cases hsplit : c.size - n > headerSize
  · simp only [if_pos hsplit]
    obtain ⟨m₃, hm₃, hsize₃, huse₃, hnext₃, hframe₃⟩ := newBlock_spec (m := m) (q := q)
      (r := c.size - n - headerSize) (q + headerSize + n) (by omega) (by omega) hnext
      (link_lt htop (by omega))
    simp only at hm₃
    rw [hm₃]
    have hframe (x : ℕ) (hx : x < q ∨ q + headerSize ≤ x) :
        setInUse (setNext (setSize m₃ q n) q (q + headerSize + n)) q 1 x = m₃ x := by
      rw [setInUse_of_not hx, setNext_of_not hx, setSize_of_not hx]
    obtain ⟨hsize', huse', hnext'⟩ := header_congr (a := q + headerSize + n) m₃
      (setInUse (setNext (setSize m₃ q n) q (q + headerSize + n)) q 1) fun x hx _ =>
        hframe x (.inr (by omega))
    refine ⟨_, rfl, ⟨?_, ?_, ?_, hsize'.trans hsize₃, huse'.trans huse₃, ?_, ?_⟩, fun x hx => ?_⟩
    · rw [size_setInUse, size_setNext, size_setSize (by omega)]
    · rw [inUse_setInUse]
      rfl
    · rw [next_setInUse, next_setNext (by omega)]
      exact (link_of_lt (a := q + headerSize + n) (by omega)).symm
    · rw [hnext', hnext₃, he]
      congr 1
      dsimp only
      omega
    · change q + headerSize + n + headerSize + (c.size - n - headerSize) = e
      omega
    · rw [hframe x (by omega), hframe₃ x (by omega)]
  · simp only [if_neg hsplit]
    refine ⟨_, rfl, ⟨?_, ?_, ?_, he⟩, fun x hx => setInUse_of_not (by omega)⟩
    · rw [size_setInUse, hsize]
    · rw [inUse_setInUse]
      rfl
    · rw [next_setInUse, hnext]

/-- One block of it is handed out, and it begins where the carved block does. -/
theorem carve_used (q n : ℕ) (c : Block) (hn : n ≤ c.size) :
    (∃ k, n ≤ k ∧ (q, ⟨k, true⟩) ∈ placed q (carve n c)) ∧
      ∀ q' d, (q', d) ∈ placed q (carve n c) → d.inUse = true → q' = q := by
  rw [carve]
  split
  · refine ⟨⟨n, Nat.le_refl n, List.mem_cons_self⟩, fun q' d hd huse => ?_⟩
    rcases List.mem_cons.1 hd with hd | hd
    · exact (Prod.mk.inj hd).1
    · rw [(Prod.mk.inj (List.mem_singleton.1 hd)).2] at huse
      exact absurd huse Bool.false_ne_true
  · refine ⟨⟨c.size, hn, List.mem_cons_self⟩, fun q' d hd _ => ?_⟩
    exact (Prod.mk.inj (List.mem_singleton.1 hd)).1

theorem apart_carve (hc : c.inUse = false) (h : NoFreeNeighbours (bs ++ c :: cs)) :
    NoFreeNeighbours (bs ++ carve n c ++ cs) := by
  rw [NoFreeNeighbours, List.isChain_append, List.isChain_cons] at h
  obtain ⟨hfront, ⟨hnext, hback⟩, -⟩ := h
  have hhead (d : Block) (hd : d ∈ cs.head?) : d.inUse = true := by
    simpa [hc] using hnext d hd
  rw [NoFreeNeighbours, List.append_assoc, List.isChain_append]
  refine ⟨hfront, ?_, ?_⟩
  · rw [carve]
    split
    · exact List.isChain_cons_cons.2
        ⟨.inl rfl, List.isChain_cons.2 ⟨fun d hd => .inr (hhead d hd), hback⟩⟩
    · exact List.isChain_cons.2 ⟨fun _ _ => .inl rfl, hback⟩
  · intro d _ d' hd'
    rw [carve] at hd'
    split at hd' <;> exact .inr (by rw [← Option.some.inj hd'])

theorem heapOk_carve {q : ℕ} {m' : Bytes} (hok : HeapOk base h live (bs ++ c :: cs))
    (hq : q = base + extent bs) (hsuff : Sufficient n c)
    (hcarve : Tiles m' (base + heapSize) q (carve n c) (q + headerSize + c.size))
    (hframe : ∀ x, x < q ∨ q + headerSize + c.size ≤ x → m' x = h.mem x) :
    HeapOk base { h with mem := m' } ((q + headerSize, n) :: live) (bs ++ carve n c ++ cs) := by
  have ht := hok.tiles
  rw [tiles_append] at ht
  obtain ⟨hfront, -, -, -, hback⟩ := ht
  rw [← hq] at hfront hback
  have hext := extent_carve hsuff.2
  have hnew : base + extent (bs ++ carve n c) = q + headerSize + c.size := by
    rw [extent_append, hext]
    omega
  have hplaced (q' : ℕ) (d : Block) :
      (q', d) ∈ placed base (bs ++ carve n c ++ cs) ↔ (q', d) ∈ placed base bs ∨
        (q', d) ∈ placed q (carve n c) ∨ (q', d) ∈ placed (q + headerSize + c.size) cs := by
    rw [placed_append, List.mem_append, placed_append, List.mem_append, hnew, ← hq, or_assoc]
  have hold (q' : ℕ) (d : Block) (hd : d.inUse = true) :
      (q', d) ∈ placed base (bs ++ c :: cs) ↔ (q', d) ∈ placed base bs ∨
        (q', d) ∈ placed (q + headerSize + c.size) cs := by
    rw [placed_append, List.mem_append, ← hq, placed, List.mem_cons, or_iff_right (b := _ ∈ _)]
    rintro heq
    rw [(Prod.mk.inj heq).2, hsuff.1] at hd
    exact absurd hd (by decide)
  obtain ⟨⟨k, hk, hkUsed⟩, hkOnly⟩ := carve_used q n c hsuff.2
  refine ⟨hok.list, ?_, apart_carve hsuff.1 hok.apart, fun p n' hp => ?_,
    fun q' d hd huse => ?_, ?_⟩
  · rw [tiles_append, tiles_append, hnew, ← hq]
    exact ⟨⟨tiles_congr (fun x _ hx => hframe x (.inl hx)) hfront, hcarve⟩,
      tiles_congr (fun x hx _ => hframe x (.inr hx)) hback⟩
  · rcases List.mem_cons.1 hp with hp | hp
    · obtain ⟨rfl, rfl⟩ := Prod.mk.inj hp
      exact ⟨q, _, rfl, (hplaced _ _).2 (.inr (.inl hkUsed)), rfl, hk⟩
    · obtain ⟨q', d, rfl, hd, huse, hsize⟩ := hok.used p n' hp
      refine ⟨q', d, rfl, (hplaced q' d).2 ?_, huse, hsize⟩
      rcases (hold q' d huse).1 hd with h | h
      · exact .inl h
      · exact .inr (.inr h)
  · rcases (hplaced q' d).1 hd with h | h | h
    · obtain ⟨n', hn'⟩ := hok.owned q' d ((hold q' d huse).2 (.inl h)) huse
      exact ⟨n', List.mem_cons_of_mem _ hn'⟩
    · rw [hkOnly q' d h huse]
      exact ⟨n, List.mem_cons_self⟩
    · obtain ⟨n', hn'⟩ := hok.owned q' d ((hold q' d huse).2 (.inr h)) huse
      exact ⟨n', List.mem_cons_of_mem _ hn'⟩
  · rw [List.map_cons, List.nodup_cons]
    refine ⟨fun hmem => ?_, hok.once⟩
    obtain ⟨⟨p, n'⟩, hp, hpq⟩ := List.mem_map.1 hmem
    obtain ⟨q', d, rfl, hd, huse, -⟩ := hok.used p n' hp
    obtain rfl : q' = q := Nat.add_right_cancel hpq
    have hc := mem_placed_split base bs c cs
    rw [← hq] at hc
    rcases placed_disjoint hd hc with ⟨-, rfl⟩ | h | h
    · rw [hsuff.1] at huse
      exact absurd huse (by decide)
    · rw [headerSize] at h
      omega
    · rw [headerSize] at h
      omega

/-- What holds of every call of `kmalloc`. -/
theorem kmalloc_spec (hbase : 0 < base) (htop : base + heapSize ≤ 2 ^ 32)
    (hok : HeapOk base h live bs) (n : ℕ) :
    (kmalloc h n = some (h, 0) ∧ (n = 0 ∨ ∀ q c, (q, c) ∈ placed base bs → ¬Sufficient n c)) ∨
    ∃ h' q c bs', kmalloc h n = some (h', q + headerSize) ∧ n ≠ 0 ∧ (q, c) ∈ placed base bs ∧
      Sufficient n c ∧ (∀ q' d, (q', d) ∈ placed base bs → Sufficient n d → c.size ≤ d.size) ∧
      HeapOk base h' ((q + headerSize, n) :: live) bs' ∧ KeepsUsed base bs h.mem h'.mem := by
  by_cases hn : n = 0
  · exact .inl ⟨by rw [kmalloc, hn]; rfl, .inl hn⟩
  have hguard : (decide (n = 0) || decide (h.freeList = 0)) = false := by
    rw [hok.list, decide_eq_false hn, decide_eq_false (by omega)]
    rfl
  obtain ⟨r, s, hrun, hrs⟩ := findBest_spec (n := n) 0 (2 ^ 32 - 1) hbase
    hok.tiles (length_lt_heapSize hok.tiles)
  rw [link_of_lt (by rw [heapSize]; omega)] at hrun
  rw [kmalloc, hguard, if_neg Bool.false_ne_true, hok.list, hrun]
  rcases hrs with ⟨rfl, rfl, hmin⟩ | ⟨c, hc, hsuff, rfl, -, hmin⟩
  · refine .inl ⟨rfl, .inr fun q c hc hsuff => ?_⟩
    have hsize := hmin q c hc hsuff
    have hbounds := placed_bounds hc
    rw [← tiles_extent hok.tiles, headerSize] at hbounds
    omega
  · refine .inr ?_
    have hbounds := placed_bounds hc
    obtain ⟨bs₁, bs₂, rfl, rfl⟩ := split_of_placed hc
    have ht := hok.tiles
    rw [tiles_append] at ht
    obtain ⟨hfront, hsize, huse, hnext, hback⟩ := ht
    have hrest := tiles_extent hback
    obtain ⟨m', hm', hcarve, hframe⟩ := carve_spec (n := n) htop
      (c := c) (e := base + extent bs₁ + headerSize + c.size) ⟨hsize, huse, hnext, rfl⟩
      (by omega) hsuff.2
    have hext := extent_carve hsuff.2
    refine ⟨{ h with mem := m' }, base + extent bs₁, c, bs₁ ++ carve n c ++ bs₂, ?_, hn, hc, hsuff,
      hmin, ?_, ?_⟩
    · subst hm'
      simp only [if_neg (show base + extent bs₁ ≠ 0 by omega), hok.list]
    · exact heapOk_carve hok rfl hsuff hcarve hframe
    · intro q d hd hdUse x hx hx'
      refine hframe x ?_
      rcases placed_disjoint hd hc with ⟨rfl, rfl⟩ | h | h
      · rw [hsuff.1] at hdUse
        exact absurd hdUse (by decide)
      · exact .inl (by omega)
      · exact .inr (by omega)

/-! ## Freeing -/

/-- The blocks in use once the one behind `bs` has been marked free. -/
theorem placed_freed {d : Block} (huse : d.inUse = true) :
    (p, d) ∈ placed a (bs ++ ⟨c.size, false⟩ :: cs) ↔
      (p, d) ∈ placed a (bs ++ c :: cs) ∧ p ≠ a + extent bs := by
  rw [placed_append, placed_append, List.mem_append, List.mem_append, placed, placed, List.mem_cons,
    List.mem_cons]
  constructor
  · rintro (h | h | h)
    · have := (placed_bounds h).2
      rw [headerSize] at this
      exact ⟨.inl h, by omega⟩
    · rw [(Prod.mk.inj h).2] at huse
      exact absurd huse Bool.false_ne_true
    · have := (placed_bounds h).1
      rw [headerSize] at this
      exact ⟨.inr (.inr h), by omega⟩
  · rintro ⟨h | h | h, hne⟩
    · exact .inl h
    · exact absurd (Prod.mk.inj h).1 hne
    · exact .inr (.inr h)

/-- Marking a block free, in memory. -/
theorem tiles_freed {top : ℕ} (h : Tiles m top a (bs ++ c :: cs) e) :
    Tiles (setInUse m (a + extent bs) 0) top a (bs ++ ⟨c.size, false⟩ :: cs) e := by
  rw [tiles_append] at h ⊢
  obtain ⟨hfront, hsize, huse, hnext, hback⟩ := h
  refine ⟨tiles_congr (fun x _ hx => setInUse_of_not (.inl hx)) hfront, ?_, ?_, ?_,
    tiles_congr (fun x hx _ => setInUse_of_not (.inr (by omega))) hback⟩
  · rw [size_setInUse, hsize]
  · rw [inUse_setInUse]
    rfl
  · rw [next_setInUse, hnext]

/-- What holds of every call of `kfree` with a live pointer. -/
theorem kfree_spec (hbase : 0 < base) (htop : base + heapSize ≤ 2 ^ 32)
    (hok : HeapOk base h live bs) (hp : (p, n) ∈ live) :
    ∃ h' bs', kfree h p = some h' ∧ HeapOk base h' (live.filter fun l => l.1 != p) bs' ∧
      ∀ q c, (q, c) ∈ placed base bs → c.inUse = true → q + headerSize ≠ p →
        ∀ x, q ≤ x → x < q + headerSize + c.size → h'.mem x = h.mem x := by
  obtain ⟨q, c, rfl, hc, huse, -⟩ := hok.used p n hp
  obtain ⟨bs₁, bs₂, rfl, rfl⟩ := split_of_placed hc
  have ht := tiles_freed hok.tiles
  obtain ⟨m', hrun, ht', hkeeps, -⟩ := coalesceFrom_spec hbase htop ht (length_lt_heapSize ht)
  rw [link_of_lt (by rw [heapSize]; omega)] at hrun
  have hplaced {q : ℕ} {d : Block} (hd : d.inUse = true) :=
    (@mem_placed_merge base q d (bs₁ ++ ⟨c.size, false⟩ :: bs₂) hd).trans
      (placed_freed hd)
  refine ⟨{ h with mem := m' }, _, ?_,
    ⟨hok.list, ht', merge_noFreeNeighbours _, fun p' n' hp' => ?_, fun q' d hd hdUse => ?_, ?_⟩,
    fun q' d hd hdUse hne x hx hx' => ?_⟩
  · rw [kfree, hok.list, decide_eq_false (by omega), decide_eq_false (by omega), Bool.or_false,
      if_neg Bool.false_ne_true, Nat.add_sub_cancel]
    simp only [hrun, Option.map_some]
  · obtain ⟨hlive, hne⟩ := List.mem_filter.1 hp'
    obtain ⟨q', d, rfl, hd, hdUse, hsize⟩ := hok.used p' n' hlive
    refine ⟨q', d, rfl, (hplaced hdUse).2 ⟨hd, ?_⟩, hdUse, hsize⟩
    rintro rfl
    simp at hne
  · obtain ⟨hd, hne⟩ := (hplaced hdUse).1 hd
    obtain ⟨n', hn'⟩ := hok.owned q' d hd hdUse
    exact ⟨n', List.mem_filter.2 ⟨hn', by simpa using hne⟩⟩
  · exact hok.once.sublist (List.filter_sublist.map _)
  · have hne : q' ≠ base + extent bs₁ := by
      rintro rfl
      exact hne rfl
    refine (hkeeps q' d ((placed_freed hdUse).2 ⟨hd, hne⟩) hdUse x hx hx').trans
      (setInUse_of_not ?_)
    rcases placed_disjoint hd hc with ⟨heq, -⟩ | h | h
    · exact absurd heq hne
    · exact .inl (by omega)
    · exact .inr (by omega)

/-! ## Runs -/

/-- The runs that begin with `heap_init`, with what is live in the end. A caller may write to what
it holds, and memory outside the heap changes as it likes. -/
inductive Run (b : ℕ) : Heap → List (ℕ × ℕ) → Prop where
  | init (m : Bytes) : Run b (heapInit b m) []
  | malloc {h₁ h₂ : Heap} {l : List (ℕ × ℕ)} {k r : ℕ} : Run b h₁ l → kmalloc h₁ k = some (h₂, r) →
      Run b h₂ (if r = 0 then l else (r, k) :: l)
  | freeNull {h₁ h₂ : Heap} {l : List (ℕ × ℕ)} : Run b h₁ l → kfree h₁ 0 = some h₂ → Run b h₂ l
  | free {h₁ h₂ : Heap} {l : List (ℕ × ℕ)} {r k : ℕ} : Run b h₁ l → (r, k) ∈ l →
      kfree h₁ r = some h₂ → Run b h₂ (l.filter fun i => i.1 != r)
  | store {h₁ : Heap} {l : List (ℕ × ℕ)} {r k y : ℕ} (v : UInt8) : Run b h₁ l → (r, k) ∈ l →
      r ≤ y → y < r + k → Run b { h₁ with mem := write8 h₁.mem y v } l
  | outside {h₁ : Heap} {l : List (ℕ × ℕ)} {y : ℕ} (v : UInt8) : Run b h₁ l →
      y < b ∨ b + heapSize ≤ y → Run b { h₁ with mem := write8 h₁.mem y v } l

theorem heapOk_init (base : ℕ) (m : Bytes) :
    HeapOk base (heapInit base m) [] [⟨heapSize - headerSize, false⟩] := by
  have hend : base + headerSize + (heapSize - headerSize) = base + heapSize := by
    rw [Nat.add_assoc]
    rfl
  refine ⟨rfl, ⟨?_, ?_, ?_, ?_⟩, List.IsChain.singleton _, fun p n hp => absurd hp List.not_mem_nil,
    fun q c hc huse => ?_, List.nodup_nil⟩
  · rw [heapInit, size_setNext, size_setInUse, size_setSize (by decide)]
  · rw [heapInit, inUse_setNext, inUse_setInUse]
    rfl
  · rw [heapInit, next_setNext (by decide), link, if_pos hend]
  · exact hend
  · rw [(Prod.mk.inj (List.mem_singleton.1 hc)).2] at huse
    exact absurd huse Bool.false_ne_true

/-- Bytes of a payload are not part of a header. -/
theorem tiles_write8 {top : ℕ} {v : UInt8} (h : Tiles m top a bs e)
    (hx : x < a ∨ e ≤ x ∨ ∃ q c, (q, c) ∈ placed a bs ∧ q + headerSize ≤ x ∧
      x < q + headerSize + c.size) :
    Tiles (write8 m x v) top a bs e := by
  have hframe (y : ℕ) (hy : y ≠ x) : write8 m x v y = m y := write8_of_ne hy
  rcases hx with hx | hx | ⟨q, c, hc, hq, hx⟩
  · exact tiles_congr (fun y _ _ => hframe y (by omega)) h
  · exact tiles_congr (fun y _ _ => hframe y (by omega)) h
  · obtain ⟨bs₁, bs₂, rfl, rfl⟩ := split_of_placed hc
    rw [tiles_append] at h ⊢
    obtain ⟨hfront, hsize, huse, hnext, hback⟩ := h
    obtain ⟨hsize', huse', hnext'⟩ := header_congr (a := a + extent bs₁) m
      (write8 m x v) fun y _ _ => hframe y (by omega)
    exact ⟨tiles_congr (fun y _ _ => hframe y (by omega)) hfront, hsize'.trans hsize,
      huse'.trans huse, hnext'.trans hnext,
      tiles_congr (fun y _ _ => hframe y (by omega)) hback⟩

theorem heapOk_write8 {v : UInt8} (hok : HeapOk base h live bs)
    (hx : x < base ∨ base + heapSize ≤ x ∨ ∃ p n, (p, n) ∈ live ∧ p ≤ x ∧ x < p + n) :
    HeapOk base { h with mem := write8 h.mem x v } live bs := by
  refine { hok with tiles := tiles_write8 hok.tiles ?_ }
  rcases hx with hx | hx | ⟨p, n, hp, hpx, hxn⟩
  · exact .inl hx
  · exact .inr (.inl hx)
  · obtain ⟨q, c, rfl, hc, -, hn⟩ := hok.used p n hp
    exact .inr (.inr ⟨q, c, hc, hpx, by omega⟩)

theorem heapOk_run (hbase : 0 < base) (htop : base + heapSize ≤ 2 ^ 32) (hrun : Run base h live) :
    ∃ bs, HeapOk base h live bs := by
  induction hrun with
  | init m => exact ⟨_, heapOk_init base m⟩
  | @malloc h h' live n p hprev hcall ih =>
    obtain ⟨bs, hok⟩ := ih
    rcases kmalloc_spec hbase htop hok n with
      ⟨hspec, -⟩ | ⟨h₂, q, c, bs', hspec, -, -, -, -, hok', -⟩
    · obtain ⟨rfl, rfl⟩ := Prod.mk.inj (Option.some.inj (hspec.symm.trans hcall))
      exact ⟨bs, by rwa [if_pos rfl]⟩
    · obtain ⟨rfl, rfl⟩ := Prod.mk.inj (Option.some.inj (hspec.symm.trans hcall))
      exact ⟨bs', by rwa [if_neg (by rw [headerSize]; omega)]⟩
  | freeNull _ hcall ih =>
    rw [kfree, decide_eq_true rfl, Bool.true_or, if_pos rfl] at hcall
    rwa [← Option.some.inj hcall]
  | free _ hp hcall ih =>
    obtain ⟨bs, hok⟩ := ih
    obtain ⟨h₂, bs', hspec, hok', -⟩ := kfree_spec hbase htop hok hp
    rw [hspec] at hcall
    exact ⟨bs', by rwa [← Option.some.inj hcall]⟩
  | store v _ hp hpx hxn ih =>
    obtain ⟨bs, hok⟩ := ih
    exact ⟨bs, heapOk_write8 hok (.inr (.inr ⟨_, _, hp, hpx, hxn⟩))⟩
  | outside v _ hx ih =>
    obtain ⟨bs, hok⟩ := ih
    exact ⟨bs, heapOk_write8 hok (by tauto)⟩

/-! ## What the callers see -/

/-- The block of a live pointer, its header with it, is as it was. -/
def Untouched (h h' : Heap) (p : ℕ) : Prop :=
  ∀ x, p - headerSize ≤ x → x < p + size h.mem (p - headerSize) → h'.mem x = h.mem x

theorem size_of_placed (h : Tiles m top a bs e) (hc : (q, c) ∈ placed a bs) :
    size m q = c.size := by
  obtain ⟨bs₁, bs₂, rfl, rfl⟩ := split_of_placed hc
  rw [tiles_append] at h
  exact h.2.1

theorem untouched_of_placed (hok : HeapOk base h live bs) (hc : (q, c) ∈ placed base bs)
    (hx : ∀ x, q ≤ x → x < q + headerSize + c.size → h'.mem x = h.mem x) :
    Untouched h h' (q + headerSize) := by
  intro x
  rw [Nat.add_sub_cancel, size_of_placed hok.tiles hc]
  exact hx x

/-- Live payloads are apart, with a header between them. -/
theorem pairwise_live (hok : HeapOk base h live bs) :
    live.Pairwise fun l l' =>
      l.1 + size h.mem (l.1 - headerSize) + headerSize ≤ l'.1 ∨
        l'.1 + size h.mem (l'.1 - headerSize) + headerSize ≤ l.1 := by
  have honce := List.pairwise_map.1 hok.once
  refine honce.imp_of_mem fun {l l'} hl hl' hne => ?_
  obtain ⟨q, c, hq, hc, -, -⟩ := hok.used l.1 l.2 hl
  obtain ⟨q', c', hq', hc', -, -⟩ := hok.used l'.1 l'.2 hl'
  rw [hq, hq'] at hne ⊢
  rw [Nat.add_sub_cancel, Nat.add_sub_cancel, size_of_placed hok.tiles hc,
    size_of_placed hok.tiles hc']
  rcases placed_disjoint hc hc' with ⟨rfl, -⟩ | h | h
  · exact absurd rfl hne
  · exact .inl (by omega)
  · exact .inr (by omega)

/-- With nothing live, all of the heap is one free block. -/
theorem single_of_nil (hok : HeapOk base h [] bs) : bs = [⟨heapSize - headerSize, false⟩] := by
  have hfree (b : Block) (hb : b ∈ bs) : b.inUse = false := by
    obtain ⟨bs₁, bs₂, rfl⟩ := List.append_of_mem hb
    by_contra huse
    obtain ⟨n, hn⟩ := hok.owned _ b (mem_placed_split base bs₁ b bs₂) (by simpa using huse)
    exact absurd hn List.not_mem_nil
  have hext := tiles_extent hok.tiles
  have hh : headerSize = 12 := rfl
  match bs with
  | [] =>
    rw [heapSize, extent] at hext
    simp at hext
  | [b] =>
    rw [extent_cons, extent] at hext
    simp only [List.map_nil, List.sum_nil] at hext
    obtain ⟨k, u⟩ := b
    obtain rfl : u = false := hfree _ List.mem_cons_self
    have : k = heapSize - headerSize := by
      dsimp only at hext
      omega
    rw [this]
  | b :: c :: bs =>
    have := (List.isChain_cons_cons.1 hok.apart).1
    rw [hfree b List.mem_cons_self, hfree c (List.mem_cons_of_mem _ List.mem_cons_self)] at this
    simp at this

/-- What holds after every run: the blocks tile the heap, live payloads are apart and as large as
asked for, and the next call of either function ends, takes a smallest sufficient block if there is
one, and touches no block but its own. -/
theorem kmalloc_kfree_run (hbase : 0 < base) (htop : base + heapSize ≤ 2 ^ 32)
    (hrun : Run base h live) :
    ∃ bs, HeapOk base h live bs ∧
      live.Pairwise (fun l l' =>
        l.1 + size h.mem (l.1 - headerSize) + headerSize ≤ l'.1 ∨
          l'.1 + size h.mem (l'.1 - headerSize) + headerSize ≤ l.1) ∧
      (∀ l ∈ live, l.2 ≤ size h.mem (l.1 - headerSize)) ∧
      (∀ n, ∃ h' r, kmalloc h n = some (h', r) ∧
        (r = 0 ↔ n = 0 ∨ ∀ q c, (q, c) ∈ placed base bs → ¬Sufficient n c) ∧
        (r ≠ 0 → ∃ q c, r = q + headerSize ∧ (q, c) ∈ placed base bs ∧ Sufficient n c ∧
          ∀ q' d, (q', d) ∈ placed base bs → Sufficient n d → c.size ≤ d.size) ∧
        ∀ l ∈ live, Untouched h h' l.1) ∧
      (∀ p, p = 0 ∨ p ∈ live.map Prod.fst → ∃ h', kfree h p = some h' ∧
        ∀ l ∈ live, l.1 ≠ p → Untouched h h' l.1) ∧
      (live = [] → bs = [⟨heapSize - headerSize, false⟩]) := by
  obtain ⟨bs, hok⟩ := heapOk_run hbase htop hrun
  refine ⟨bs, hok, pairwise_live hok, fun l hl => ?_, fun n => ?_, fun p hp => ?_, ?_⟩
  · obtain ⟨q, c, hq, hc, -, hn⟩ := hok.used l.1 l.2 hl
    rwa [hq, Nat.add_sub_cancel, size_of_placed hok.tiles hc]
  · rcases kmalloc_spec hbase htop hok n with
      ⟨hcall, hnone⟩ | ⟨h', q, c, bs', hcall, hn, hc, hsuff, hmin, -, hkeeps⟩
    · exact ⟨h, 0, hcall, iff_of_true rfl hnone, fun h => absurd rfl h, fun l _ x _ _ => rfl⟩
    · refine ⟨h', q + headerSize, hcall, iff_of_false (by rw [headerSize]; omega) ?_,
        fun _ => ⟨q, c, rfl, hc, hsuff, hmin⟩, fun l hl => ?_⟩
      · rintro (h | h)
        · exact hn h
        · exact h q c hc hsuff
      · obtain ⟨q', d, hq', hd, huse, -⟩ := hok.used l.1 l.2 hl
        rw [hq']
        exact untouched_of_placed hok hd (hkeeps q' d hd huse)
  · rcases hp with rfl | hp
    · exact ⟨h, by rw [kfree, decide_eq_true rfl]; rfl, fun l _ _ x _ _ => rfl⟩
    · obtain ⟨⟨p, n⟩, hl, rfl⟩ := List.mem_map.1 hp
      obtain ⟨h', bs', hcall, -, hkeeps⟩ := kfree_spec hbase htop hok hl
      refine ⟨h', hcall, fun l hl hne => ?_⟩
      obtain ⟨q', d, hq', hd, huse, -⟩ := hok.used l.1 l.2 hl
      rw [hq'] at hne ⊢
      exact untouched_of_placed hok hd (hkeeps q' d hd huse hne)
  · rintro rfl
    exact single_of_nil hok

/-- A heap at 4096 that has handed out a hundred bytes. -/
theorem kmalloc_kfree_run_hundred :
    ∃ h, Run 4096 h [(4108, 100)] ∧ ∃ bs, HeapOk 4096 h [(4108, 100)] bs ∧
      ∃ h', kfree h 4108 = some h' := by
  have hcall : ∃ h, kmalloc (heapInit 4096 fun _ => 0) 100 = some (h, 4108) := ⟨_, rfl⟩
  obtain ⟨h, hcall⟩ := hcall
  have hrun : Run 4096 h [(4108, 100)] := (Run.init fun _ => 0).malloc hcall
  obtain ⟨bs, hok, -, -, -, hfree, -⟩ := kmalloc_kfree_run (by decide) (by decide) hrun
  obtain ⟨h', hcall', -⟩ := hfree 4108 (.inr List.mem_cons_self)
  exact ⟨h, hrun, bs, hok, h', hcall'⟩

end MinervaOS.Heap
