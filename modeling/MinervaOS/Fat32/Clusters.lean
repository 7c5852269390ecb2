import MinervaOS.Fat32.Access

/-!
# Reading, taking, filling and freeing clusters

A FAT entry is read from the first copy and written copy by copy, so a refused write leaves the
first few copies written. `free_cluster_chain` walks the FAT it is zeroing: each value is read
before its entry is cleared, so on a chain it visits all of it, and when it fails it was torn unless
it failed before its first write.
-/

namespace MinervaOS.Fat32

open Prog

variable {m : Mount} (g : Geometry m)

section Entries

include g

theorem readFatEntry_spec {c : Nat} (hc : c < maxCluster m) (s : Fs) :
    Total (readFatEntry m c) s fun r s' => Reads s s' ∧
      (r = some (fatValue m s.disk c) ∨ r = none ∧ Refused s s') := by
  have hl := g.fatSector_lt_lba g.fatCount_pos hc
  obtain ⟨h1, h2⟩ := g.fatLba hc
  simp only [readFatEntry, h1, h2, total_bind]
  refine (ataReadSector_spec hl s).mono fun ok s₁ hread => ?_
  rcases hread with ⟨hr, hsec, hno⟩
  cases ok with
  | false => simpa using ⟨hr, hno rfl⟩
  | true =>
    simp only [Bool.not_true, Bool.false_eq_true, if_false, total_bind, total_get, total_pure,
      hsec rfl, reduceCtorEq, false_and, or_false, Option.some.injEq]
    exact ⟨hr, by simp [fatValue, hc, fatEntry]⟩

theorem nextCluster_spec {c : Nat} (hc : c < maxCluster m) (s : Fs) :
    Total (nextCluster m c) s fun r s' => Reads s s' ∧
      (r = fatValue m s.disk c ∨ r = fat32Eoc ∧ Refused s s') := by
  have hl := g.fatSector_lt_lba g.fatCount_pos hc
  obtain ⟨h1, h2⟩ := g.fatLba hc
  simp only [nextCluster, h1, h2, total_bind]
  refine (ataReadSector_spec hl s).mono fun ok s₁ hread => ?_
  rcases hread with ⟨hr, hsec, hno⟩
  cases ok with
  | false => simpa using ⟨hr, .inr (hno rfl)⟩
  | true =>
    simp only [Bool.not_true, Bool.false_eq_true, if_false, total_bind, total_get, total_pure,
      hsec rfl]
    exact ⟨hr, .inl (by simp [fatValue, hc, fatEntry])⟩

theorem writeFatCopies_spec {c : Nat} (hc : c < maxCluster m) (v : Nat) :
    ∀ (n fat : Nat) (s : Fs), fat + n ≤ m.bpb.fatCount →
      Total (writeFatCopies m c v n fat) s fun ok s' => ∃ k ≤ n,
        Moves s s' (fatWrite m s.disk c v fat (fat + k)) ∧
        (ok = true → k = n ∧ (0 < n → Dirty s s')) ∧
        (ok = false → Refused s s' ∧ (k = 0 ∨ Torn s s')) := by
  intro n
  induction n with
  | zero =>
    intro fat s _
    simp only [writeFatCopies, total_pure]
    refine ⟨0, Nat.le_refl 0, ⟨.refl s, rfl, ?_⟩, by simp, by simp⟩
    rw [Nat.add_zero, fatWrite_self]
  | succ n ih =>
    intro fat s hn
    have hfat : fat < m.bpb.fatCount := by omega
    have hl := g.fatSector_lt_lba hfat hc
    simp only [writeFatCopies, g.fatLba_copy hfat hc, (g.fatLba hc).2, total_bind]
    have hnone : s.disk = fatWrite m s.disk c v fat (fat + 0) := by
      rw [Nat.add_zero, fatWrite_self]
    refine (ataReadSector_spec hl s).mono fun ok s₁ hread => ?_
    rcases hread with ⟨hr, hsec, hno⟩
    cases ok with
    | false =>
      simp only [Bool.not_false, if_true, total_pure]
      exact ⟨0, Nat.zero_le _, ⟨hr.ext, hr.granted, hr.disk.trans hnone⟩, by simp,
        fun _ => ⟨hno rfl, .inl rfl⟩⟩
    | true =>
      simp only [Bool.not_true, Bool.false_eq_true, if_false, total_bind]
      refine (modifySector_spec _ s₁).mono fun _ s₂ hput₂ => ?_
      rcases hput₂ with ⟨hr₂, hsec₂⟩
      have h₂ : Reads s s₂ := hr.reads hr₂
      have hput : putSector s₂.disk (fatSector m fat c) s₂.sector =
          editSector s.disk (fatSector m fat c) fun sec => wr32 sec (c % 128 * 4) v := by
        rw [putSector_edit (f := fun sec => wr32 sec (c % 128 * 4) v)
          (by rw [hsec₂, hsec rfl, h₂.disk]), h₂.disk]
      refine (ataWriteSector_spec hl s₂).mono fun ok s₃ h => ?_
      rcases h with ⟨rfl, hm, hd⟩ | ⟨rfl, hm, hd⟩
      · rw [hput] at hm
        have h₃ := h₂.trans hm
        have hdirty : Dirty s s₃ := hd.of_extends h₂.ext
        simp only [Bool.not_true, Bool.false_eq_true, if_false]
        refine (ih (fat + 1) s₃ (by omega)).mono ?_
        rintro ok s₄ ⟨k, hk, hm₄, hok, hnok⟩
        refine ⟨k + 1, by omega, ?_, fun h => ⟨by rw [(hok h).1], fun _ => hdirty.extends hm₄.ext⟩,
          fun h => ⟨(hnok h).1.of_extends h₃.ext, .inr (hdirty.torn (hnok h).1)⟩⟩
        have hd₄ := hm₄.disk
        rw [h₃.disk, show fat + 1 + k = fat + (k + 1) by omega,
          fatWrite_editSector g s.disk v hc (by omega)] at hd₄
        exact ⟨h₃.ext.trans hm₄.ext, hm₄.granted.trans h₃.granted, hd₄⟩
      · simp only [Bool.not_false, if_true, total_pure]
        have h₃ := h₂.reads hm
        exact ⟨0, Nat.zero_le _, ⟨h₃.ext, h₃.granted, h₃.disk.trans hnone⟩, by simp,
          fun _ => ⟨hd.of_extends h₂.ext, .inl rfl⟩⟩

theorem writeFatEntry_spec {c : Nat} (hc : c < maxCluster m) (v : Nat) (s : Fs) :
    Total (writeFatEntry m c v) s fun ok s' => ∃ k ≤ m.bpb.fatCount,
      Moves s s' (fatWrite m s.disk c v 0 k) ∧
      (ok = true → k = m.bpb.fatCount ∧ Dirty s s') ∧
      (ok = false → Refused s s' ∧ (k = 0 ∨ Torn s s')) := by
  refine (writeFatCopies_spec g hc v m.bpb.fatCount 0 s (by omega)).mono ?_
  rintro ok s' ⟨k, hk, hm, hok, hno⟩
  rw [Nat.zero_add] at hm
  exact ⟨k, hk, hm, fun h => ⟨(hok h).1, (hok h).2 g.fatCount_pos⟩, hno⟩

theorem clusterIsSingle_spec {c : Nat} (h2 : 2 ≤ c) (hc : c < maxCluster m) (s : Fs) :
    Total (clusterIsSingle m c) s fun ok s' => Reads s s' ∧
      (ok = decide (fat32Eoc ≤ fatValue m s.disk c) ∨ ok = false ∧ Refused s s') := by
  have h : ¬c < 2 := by omega
  simp only [clusterIsSingle, h, if_false, total_bind]
  refine (readFatEntry_spec g hc s).mono ?_
  rintro r s₁ ⟨hr, rfl | ⟨rfl, hno⟩⟩
  · simpa using hr
  · simpa using ⟨hr, .inr hno⟩

/-- What `find_free_cluster` hands out is free as the FAT stands, and is logged with the disk. -/
structure Grants (m : Mount) (s s' : Fs) (c : Nat) : Prop where
  two_le : 2 ≤ c
  lt : c < maxCluster m
  free : fatValue m s.disk c = 0
  ext : Extends s s'
  disk : s'.disk = s.disk
  granted : s'.granted = (c, s.disk) :: s.granted

theorem findFreeFrom_spec : ∀ (n c : Nat) (s : Fs), 2 ≤ c → c + n = maxCluster m →
    Total (findFreeFrom m n c) s fun r s' =>
      (∃ c', r = some c' ∧ Grants m s s' c') ∨
        (r = none ∧ Reads s s' ∧
          (Refused s s' ∨ ∀ c', c ≤ c' → c' < maxCluster m → fatValue m s.disk c' ≠ 0))
  | 0, c, s, _, hn => by
    simp only [findFreeFrom, total_pure]
    exact .inr ⟨by trivial, .refl s, .inr fun c' _ _ => by omega⟩
  | n + 1, c, s, h2, hn => by
    have hc : c < maxCluster m := by omega
    simp only [findFreeFrom, total_bind]
    refine (readFatEntry_spec g hc s).mono ?_
    rintro r s₁ ⟨hr, rfl | ⟨rfl, hno⟩⟩
    · simp only [total_ite, total_bind, total_modify, total_pure]
      refine ⟨fun h0 => .inl ⟨c, rfl, ?_⟩, fun h0 => ?_⟩
      · exact ⟨h2, hc, h0, ⟨hr.ext.choose, hr.ext.choose_spec⟩, hr.disk, by
          simp only [hr.disk, hr.granted]⟩
      · refine (findFreeFrom_spec n (c + 1) s₁ (by omega) (by omega)).mono ?_
        rintro r s₂ (⟨c', rfl, hg⟩ | ⟨rfl, hr₂, h⟩)
        · refine .inl ⟨c', rfl, hg.two_le, hg.lt, hr.disk ▸ hg.free, hr.ext.trans hg.ext,
            hg.disk.trans hr.disk, ?_⟩
          rw [hg.granted, hr.disk, hr.granted]
        · refine .inr ⟨rfl, hr.reads hr₂, h.imp (·.of_extends hr.ext) fun h c' hle hlt => ?_⟩
          rcases Nat.eq_or_lt_of_le hle with rfl | hlt'
          · exact h0
          · exact hr.disk ▸ h c' hlt' hlt
    · simp only [total_pure]
      exact .inr ⟨by trivial, hr, .inl hno⟩

theorem findFreeCluster_spec (s : Fs) :
    Total (findFreeCluster m) s fun r s' =>
      (∃ c, r = some c ∧ Grants m s s' c) ∨
        (r = none ∧ Reads s s' ∧
          (Refused s s' ∨ ∀ c, 2 ≤ c → c < maxCluster m → fatValue m s.disk c ≠ 0)) := by
  have hmax := g.maxCluster_eq
  simp only [findFreeCluster, total_ite, total_pure]
  have h2 : 2 ≤ maxCluster m := hmax ▸ Nat.le_add_left _ _
  refine ⟨fun h => .inr ⟨by trivial, .refl s, .inr fun c h2 hlt => ?_⟩, fun _ => ?_⟩
  · rw [Nat.sub_eq_zero_of_le h, Nat.zero_div] at hmax
    omega
  · exact findFreeFrom_spec g _ 2 s (Nat.le_refl 2) (by omega)

end Entries

/-! ## Freeing a chain -/

/-- The disk after the entries of `l` are zeroed in every copy. -/
def freeAll (m : Mount) (d : Disk) : List Nat → Disk
  | [] => d
  | c :: l => freeAll m (fatWrite m d c 0 0 m.bpb.fatCount) l

section Free

include g

theorem vol_freeAll {R : List Nat} : ∀ (l : List Nat) (d : Disk), (∀ c ∈ l, c < maxCluster m) →
    vol m R (freeAll m d l) =
      ⟨fun c => if c ∈ l then 0 else (vol m R d).fat c, (vol m R d).dir⟩
  | [], d, _ => by simp [freeAll]
  | c :: l, d, hl => by
    rw [freeAll, vol_freeAll l _ fun x hx => hl x (List.mem_cons_of_mem _ hx),
      vol_fatWrite g d (hl c List.mem_cons_self) g.fatCount_pos (Nat.le_refl _), Vol.mk.injEq]
    refine ⟨funext fun x => ?_, rfl⟩
    by_cases hxl : x ∈ l
    · simp [hxl]
    · by_cases hxc : x = c
      · simp [hxc]
      · simp [hxl, hxc]

theorem copiesEqual_freeAll : ∀ (l : List Nat) {d : Disk}, (∀ c ∈ l, c < maxCluster m) →
    CopiesEqual m d → CopiesEqual m (freeAll m d l)
  | [], _, _, hd => hd
  | c :: l, _, hl, hd =>
    copiesEqual_freeAll l (fun x hx => hl x (List.mem_cons_of_mem _ hx))
      (copiesEqual_fatWrite g 0 (hl c List.mem_cons_self) hd)

theorem freeAll_of_ge : ∀ (l : List Nat) (d : Disk), (∀ c ∈ l, c < maxCluster m) → ∀ {x : Nat},
    m.dataStartLba ≤ x → freeAll m d l x = d x
  | [], _, _, _, _ => rfl
  | c :: l, d, hl, x, hx => by
    rw [freeAll, freeAll_of_ge l _ (fun x hx => hl x (List.mem_cons_of_mem _ hx)) hx,
      fatWrite_of_ge g d 0 (hl c List.mem_cons_self) (Nat.le_refl _) hx]

theorem freeFrom_spec : ∀ (l : List Nat) (left c : Nat) (s : Fs), l.length ≤ left →
    Walk (fatValue m s.disk) ChainEnd c l → (∀ x ∈ l, x < maxCluster m) →
    Total (freeFrom m left c) s fun ok s' =>
      (ok = true ∧ Moves s s' (freeAll m s.disk l) ∧ (l ≠ [] → Dirty s s')) ∨
        (ok = false ∧ Extends s s' ∧ s'.granted = s.granted ∧ Refused s s' ∧
          (s'.disk = s.disk ∨ Torn s s'))
  | [], left, c, s, _, hw, _ => by
    have hstop : ChainEnd c := by cases hw with | nil h => exact h
    have hcond : (!(decide (c ≥ 2) && decide (c < fat32Eoc))) = true := by
      unfold ChainEnd at hstop
      simp only [Bool.not_eq_true', Bool.and_eq_false_iff, decide_eq_false_iff_not]
      omega
    unfold freeFrom
    simp only [hcond, if_true, total_pure]
    exact .inl ⟨by trivial, Reads.refl s, by simp⟩
  | x :: l, left, c, s, hlen, hw, hlt => by
    obtain ⟨rfl, hn, ht⟩ : c = x ∧ ¬ChainEnd c ∧
        Walk (fatValue m s.disk) ChainEnd (fatValue m s.disk c) l := by
      cases hw with | cons hn ht => exact ⟨rfl, hn, ht⟩
    have hnd := List.nodup_cons.1 hw.nodup
    have hc : c < maxCluster m := hlt c List.mem_cons_self
    have hl : ∀ x ∈ l, x < maxCluster m := fun x hx => hlt x (List.mem_cons_of_mem _ hx)
    have hcond : (!(decide (c ≥ 2) && decide (c < fat32Eoc))) = false := by
      unfold ChainEnd at hn
      simp only [Bool.not_eq_false', Bool.and_eq_true, decide_eq_true_eq]
      omega
    obtain ⟨left, rfl⟩ : ∃ k, left = k + 1 := ⟨left - 1, by simp at hlen; omega⟩
    have hge : ¬c ≥ maxCluster m := by omega
    unfold freeFrom
    simp only [hcond, Bool.false_eq_true, if_false, hge, total_bind]
    refine (readFatEntry_spec g hc s).mono ?_
    rintro r s₁ ⟨hr, rfl | ⟨rfl, hno⟩⟩
    · simp only [total_bind]
      refine (writeFatEntry_spec g hc 0 s₁).mono ?_
      rintro ok s₂ ⟨k, hk, hm, hok, hnok⟩
      cases ok with
      | true =>
        obtain ⟨rfl, hdirty⟩ := hok rfl
        have h₂ : Moves s s₂ (fatWrite m s.disk c 0 0 m.bpb.fatCount) := by
          have := hr.trans hm
          rwa [hr.disk] at this
        have hwalk : Walk (fatValue m s₂.disk) ChainEnd (fatValue m s.disk c) l := by
          refine ht.congr fun x hx => ?_
          rw [h₂.disk, fatValue_fatWrite g _ hc g.fatCount_pos, Function.update_of_ne]
          exact fun hxc => hnd.1 (hxc ▸ hx)
        simp only [Bool.not_true, Bool.false_eq_true, if_false]
        refine (freeFrom_spec l left _ s₂ (by simpa using hlen) hwalk hl).mono ?_
        have hdirty' : Dirty s s₂ := hdirty.of_extends hr.ext
        rintro ok s₃ (⟨rfl, hm₃, -⟩ | ⟨rfl, he, hgr, hno, -⟩)
        · rw [h₂.disk] at hm₃
          exact .inl ⟨rfl, h₂.trans hm₃, fun _ => hdirty'.extends hm₃.ext⟩
        · exact .inr ⟨rfl, h₂.ext.trans he, hgr.trans h₂.granted, hno.of_extends h₂.ext,
            .inr (hdirty'.torn hno)⟩
      | false =>
        simp only [Bool.not_false, if_true, total_pure]
        obtain ⟨hno, h⟩ := hnok rfl
        refine .inr ⟨by trivial, hr.ext.trans hm.ext, hm.granted.trans hr.granted,
          hno.of_extends hr.ext, h.imp (fun hk0 => ?_) (·.of_extends hr.ext)⟩
        rw [hm.disk, hk0, fatWrite_self, hr.disk]
    · simp only [total_pure]
      exact .inr ⟨by trivial, hr.ext, hr.granted, hno, .inl hr.disk⟩

theorem freeClusterChain_spec {first : Nat} {l : List Nat} (s : Fs)
    (hl : Chain (fatValue m s.disk) (maxCluster m) first l) (hne : l ≠ []) :
    Total (freeClusterChain m first) s fun ok s' =>
      (ok = true ∧ Moves s s' (freeAll m s.disk l) ∧ Dirty s s') ∨
        (ok = false ∧ Extends s s' ∧ s'.granted = s.granted ∧ Refused s s' ∧
          (s'.disk = s.disk ∨ Torn s s')) := by
  have htot : ¬totalSectors m ≤ m.dataStartLba := by
    intro h
    have hmax := g.maxCluster_eq
    rw [Nat.sub_eq_zero_of_le h, Nat.zero_div] at hmax
    obtain ⟨c, hc⟩ := List.exists_mem_of_ne_nil l hne
    have := hl.lt c hc
    have := hl.two_le hc
    omega
  simp only [freeClusterChain, htot, if_false]
  refine (freeFrom_spec g l _ first s hl.length_le hl.walk hl.lt).mono ?_
  exact fun ok s' h => h.imp (fun ⟨hok, hm, hd⟩ => ⟨hok, hm, hd hne⟩) id

end Free

/-! ## Filling a cluster -/

/-- What `write_buffer_to_cluster` puts into sector `s` of a cluster. -/
def bufferSector (buffer : Nat → UInt8) (size s : Nat) : Sector := fun i =>
  if i < 512 ∧ 512 * s + i < size then buffer (512 * s + i) else 0

/-- The disk after the sectors of cluster `c` from `lo` to before `hi` are filled from `buffer`. -/
def fillCluster (m : Mount) (d : Disk) (c : Nat) (buffer : Nat → UInt8) (size lo hi : Nat) : Disk :=
  fun x => if clusterSector m c lo ≤ x ∧ x < clusterSector m c hi then
    bufferSector buffer size (x - clusterSector m c 0) else d x

theorem fillCluster_self (d : Disk) (c : Nat) (buffer : Nat → UInt8) (size lo : Nat) :
    fillCluster m d c buffer size lo lo = d := by
  funext x
  unfold fillCluster
  rw [if_neg (by omega)]

theorem fillCluster_putSector (d : Disk) (c : Nat) (buffer : Nat → UInt8) (size : Nat) {lo hi : Nat}
    (h : lo < hi) : fillCluster m (putSector d (clusterSector m c lo) (bufferSector buffer size lo))
      c buffer size (lo + 1) hi = fillCluster m d c buffer size lo hi := by
  funext x
  unfold fillCluster putSector clusterSector
  by_cases hx : x = m.dataStartLba + (c - 2) * m.bpb.sectorsPerCluster + lo
  · rw [if_neg (by omega), if_pos hx, if_pos (by omega), hx]
    congr 1
    omega
  · rw [if_neg hx]
    exact if_congr (by omega) rfl rfl

/-- Filling a cluster leaves the sectors before the data region and the other clusters alone. -/
theorem fillCluster_of_lt (d : Disk) (c : Nat) (buffer : Nat → UInt8) (size hi : Nat) {x : Nat}
    (hx : x < m.dataStartLba) : fillCluster m d c buffer size 0 hi x = d x := by
  unfold fillCluster clusterSector
  rw [if_neg (by omega)]

theorem fillCluster_of_ne (d : Disk) {c c' : Nat} (buffer : Nat → UInt8) (size : Nat) {hi s : Nat}
    (h2 : 2 ≤ c) (h2' : 2 ≤ c') (hne : c' ≠ c) (hhi : hi ≤ m.bpb.sectorsPerCluster)
    (hs : s < m.bpb.sectorsPerCluster) :
    fillCluster m d c buffer size 0 hi (clusterSector m c' s) = d (clusterSector m c' s) := by
  unfold fillCluster
  rw [if_neg]
  rintro ⟨h1, h3⟩
  have hk : clusterSector m c' s - clusterSector m c 0 < m.bpb.sectorsPerCluster := by
    unfold clusterSector at *
    omega
  refine hne (Geometry.clusterSector_inj (m := m) h2' h2 hs hk ?_).1
  unfold clusterSector at *
  omega

section Fill

include g

theorem writeSectors_spec {c : Nat} (h2 : 2 ≤ c) (hc : c < maxCluster m) (buffer : Nat → UInt8)
    (size : Nat) : ∀ (n k : Nat) (s : Fs), k + n = m.bpb.sectorsPerCluster →
      Total (writeSectors m c buffer size n k (min size (512 * k))) s fun ok s' => ∃ j ≤ n,
        Moves s s' (fillCluster m s.disk c buffer size k (k + j)) ∧
        (ok = true → j = n) ∧ (ok = false → Refused s s') := by
  intro n
  induction n with
  | zero =>
    intro k s _
    simp only [writeSectors, total_pure]
    refine ⟨0, Nat.le_refl 0, ⟨.refl s, rfl, ?_⟩, by simp, by simp⟩
    rw [Nat.add_zero, fillCluster_self]
  | succ n ih =>
    intro k s hn
    have hk : k < m.bpb.sectorsPerCluster := by omega
    have hl := g.clusterSector_lt h2 hc hk
    simp only [writeSectors, g.clusterToLba_add h2 hc hk, total_bind]
    refine (modifySector_spec _ s).mono fun _ s₁ hput => ?_
    rcases hput with ⟨hr, hsec⟩
    have hbuf : s₁.sector = bufferSector buffer size k := by
      rw [hsec]
      funext i
      have hss : sectorSize = 512 := rfl
      simp only [copyAt, bufferSector]
      by_cases hi : i < 512 ∧ 512 * k + i < size
      · rw [if_pos hi, if_pos (by omega)]
        congr 1
        omega
      · rw [if_neg hi, if_neg (by omega)]
    refine (ataWriteSector_spec hl s₁).mono fun ok s₂ h => ?_
    rcases h with ⟨rfl, hm, -⟩ | ⟨rfl, hm, hno⟩
    · rw [hbuf, hr.disk] at hm
      have h₂ := hr.trans hm
      have hw : min size (512 * k) + min (size - min size (512 * k)) sectorSize =
          min size (512 * (k + 1)) := by
        unfold sectorSize
        omega
      simp only [Bool.not_true, Bool.false_eq_true, if_false, hw]
      refine (ih (k + 1) s₂ (by omega)).mono ?_
      rintro ok s₃ ⟨j, hj, hm₃, hok, hnok⟩
      refine ⟨j + 1, by omega, ⟨h₂.ext.trans hm₃.ext, hm₃.granted.trans h₂.granted, ?_⟩,
        fun h => by rw [hok h], fun h => (hnok h).of_extends h₂.ext⟩
      rw [hm₃.disk, h₂.disk, show k + 1 + j = k + (j + 1) by omega,
        fillCluster_putSector _ _ _ _ (by omega)]
    · simp only [Bool.not_false, if_true, total_pure]
      refine ⟨0, Nat.zero_le _, ⟨(hr.reads hm).ext, (hr.reads hm).granted, ?_⟩, by simp,
        fun _ => hno.of_extends hr.ext⟩
      rw [Nat.add_zero, fillCluster_self, (hr.reads hm).disk]

theorem writeBufferToCluster_spec {c : Nat} (h2 : 2 ≤ c) (hc : c < maxCluster m)
    (buffer : Nat → UInt8) (size : Nat) (s : Fs) :
    Total (writeBufferToCluster m c buffer size) s fun ok s' => ∃ j ≤ m.bpb.sectorsPerCluster,
      Moves s s' (fillCluster m s.disk c buffer size 0 j) ∧
      (ok = true → j = m.bpb.sectorsPerCluster) ∧ (ok = false → Refused s s') := by
  have h := writeSectors_spec g h2 hc buffer size m.bpb.sectorsPerCluster 0 s (by omega)
  simp only [Nat.zero_add, Nat.mul_zero, Nat.min_zero] at h
  exact h

end Fill

end MinervaOS.Fat32
