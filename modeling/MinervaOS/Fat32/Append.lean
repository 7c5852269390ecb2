import Mathlib.Data.Finset.Card
import MinervaOS.Fat32.Listing
import MinervaOS.Fat32.Writes

/-!
# Appending to a file

`fs_append_file` walks to the tail of the chain, fills the tail cluster from the end of the file on,
and links new clusters behind it; only the last step changes the size. Whatever step refuses, the
chain is longer at most, and the bytes below the old size are where they were.
-/

namespace MinervaOS.Fat32

open Prog

variable {m : Mount} {R : List Nat} {s s' : Fs} {d d' : Disk}

/-! ## The bytes of a cluster -/

theorem getElem?_flatMap_range {α : Type*} {f : Nat → List α} {b : Nat} (hb : 0 < b)
    (hlen : ∀ k, (f k).length = b) : ∀ n i : Nat, ((List.range n).flatMap f)[i]? =
      if i < n * b then (f (i / b))[i % b]? else none
  | 0, i => by simp
  | n + 1, i => by
    have hl : ((List.range n).flatMap f).length = n * b := by
      simp [List.length_flatMap, hlen, Nat.mul_comm]
    rw [List.range_succ, List.flatMap_append, List.flatMap_singleton, List.getElem?_append, hl,
      getElem?_flatMap_range hb hlen n i, Nat.succ_mul]
    by_cases h : i < n * b
    · rw [if_pos h, if_pos h, if_pos (by omega)]
    · rw [if_neg h]
      by_cases h' : i < n * b + b
      · have hdiv : i / b = n := by
          refine Nat.div_eq_of_lt_le (by omega) ?_
          rw [Nat.succ_mul]
          omega
        have hmod : i % b = i - n * b := by
          have := Nat.div_add_mod i b
          rw [hdiv, Nat.mul_comm] at this
          omega
        rw [if_pos h', hdiv, hmod]
      · rw [if_neg h', List.getElem?_eq_none (by rw [hlen]; omega)]

theorem getElem?_clusterBytes (d : Disk) (c i : Nat) : (clusterBytes m d c)[i]? =
    if i < bytesPerCluster m then some (d (clusterSector m c (i / 512)) (i % 512)) else none := by
  have h := getElem?_flatMap_range (f := fun k => sectorBytes (d (clusterSector m c k)))
    (b := 512) (by omega) (fun k => by simp [sectorBytes, sectorSize]) m.bpb.sectorsPerCluster i
  have hmod : i % 512 < sectorSize := Nat.mod_lt _ (by decide)
  simp only [sectorBytes, List.getElem?_map, List.getElem?_range hmod, Option.map_some] at h
  exact h

/-- The disk after positions `lo` to before `hi` of cluster `c` are overwritten. -/
def patchCluster (m : Mount) (d : Disk) (c lo hi : Nat) (src : Nat → UInt8) : Disk := fun x i =>
  if (clusterSector m c 0 ≤ x ∧ x < clusterSector m c m.bpb.sectorsPerCluster ∧ i < 512) ∧
      lo ≤ (x - clusterSector m c 0) * 512 + i ∧ (x - clusterSector m c 0) * 512 + i < hi then
    src ((x - clusterSector m c 0) * 512 + i)
  else d x i

theorem patchCluster_self (d : Disk) (c lo : Nat) (src : Nat → UInt8) :
    patchCluster m d c lo lo src = d := by
  funext x i
  unfold patchCluster
  rw [if_neg (by omega)]

theorem patchCluster_patch (d : Disk) (c : Nat) {lo mid hi : Nat} {src src' : Nat → UInt8}
    (h₁ : lo ≤ mid) (h₂ : mid ≤ hi) (h : ∀ p, mid ≤ p → src' p = src p) :
    patchCluster m (patchCluster m d c lo mid src) c mid hi src' =
      patchCluster m d c lo hi src := by
  funext x i
  unfold patchCluster
  by_cases hin : clusterSector m c 0 ≤ x ∧ x < clusterSector m c m.bpb.sectorsPerCluster ∧ i < 512
  · by_cases hm : mid ≤ (x - clusterSector m c 0) * 512 + i
    · by_cases hh : (x - clusterSector m c 0) * 512 + i < hi
      · rw [if_pos ⟨hin, hm, hh⟩, if_pos ⟨hin, by omega, hh⟩, h _ hm]
      · rw [if_neg fun hc => hh hc.2.2, if_neg fun hc => hh (Nat.lt_of_lt_of_le hc.2.2 h₂),
          if_neg fun hc => hh hc.2.2]
    · rw [if_neg fun hc => hm hc.2.1]
      by_cases hl : lo ≤ (x - clusterSector m c 0) * 512 + i
      · rw [if_pos ⟨hin, hl, by omega⟩, if_pos ⟨hin, hl, by omega⟩]
      · rw [if_neg fun hc => hl hc.2.1, if_neg fun hc => hl hc.2.1]
  · rw [if_neg fun hc => hin hc.1, if_neg fun hc => hin hc.1, if_neg fun hc => hin hc.1]

/-- One pass of the loop that fills the tail cluster. -/
theorem editSector_eq_patch (d : Disk) (c : Nat) {off n : Nat} (buffer : Nat → UInt8) (w : Nat)
    (hoff : off < bytesPerCluster m) (hn : n ≤ 512 - off % 512) :
    editSector d (clusterSector m c (off / 512)) (fun sec => copyAt sec (off % 512) n fun i =>
      buffer (w + i)) = patchCluster m d c off (off + n) fun p => buffer (w + (p - off)) := by
  funext x i
  unfold editSector patchCluster
  have hq : off / 512 < m.bpb.sectorsPerCluster := by
    unfold bytesPerCluster sectorSize at hoff
    omega
  have h0 : clusterSector m c (off / 512) = clusterSector m c 0 + off / 512 := by
    unfold clusterSector
    omega
  have hs : clusterSector m c m.bpb.sectorsPerCluster =
      clusterSector m c 0 + m.bpb.sectorsPerCluster := by
    unfold clusterSector
    omega
  rw [h0, hs]
  by_cases hx : x = clusterSector m c 0 + off / 512
  · rw [if_pos hx]
    simp only [copyAt]
    have hxd : (x - clusterSector m c 0) = off / 512 := by omega
    rw [hxd]
    by_cases hi : off % 512 ≤ i ∧ i < off % 512 + n
    · rw [if_pos hi, if_pos (by omega)]
      congr 1
      omega
    · rw [if_neg hi, if_neg (by omega), hx]
  · rw [if_neg hx, if_neg (by omega)]

theorem patchCluster_of_lt (d : Disk) (c lo hi : Nat) (src : Nat → UInt8) {x : Nat}
    (hx : x < m.dataStartLba) : patchCluster m d c lo hi src x = d x := by
  funext i
  unfold patchCluster clusterSector
  rw [if_neg (by omega)]

theorem patchCluster_of_ne (d : Disk) {c c' : Nat} (lo hi : Nat) (src : Nat → UInt8) (h2 : 2 ≤ c)
    (h2' : 2 ≤ c') (hne : c' ≠ c) {k : Nat} (hk : k < m.bpb.sectorsPerCluster) :
    patchCluster m d c lo hi src (clusterSector m c' k) = d (clusterSector m c' k) := by
  funext i
  unfold patchCluster
  rw [if_neg]
  rintro ⟨⟨h1, h3, -⟩, -⟩
  have hk' : clusterSector m c' k - clusterSector m c 0 < m.bpb.sectorsPerCluster := by
    unfold clusterSector at *
    omega
  refine hne (Geometry.clusterSector_inj (m := m) h2' h2 hk hk' ?_).1
  unfold clusterSector at *
  omega

theorem vol_patchCluster (g : Geometry m) (d : Disk) {c : Nat} (lo hi : Nat) (src : Nat → UInt8)
    (h2 : 2 ≤ c) (h2R : ∀ x ∈ R, 2 ≤ x) (hc : c ∉ R) :
    vol m R (patchCluster m d c lo hi src) = vol m R d :=
  vol_congr g (fun _ hx => patchCluster_of_lt d c lo hi src hx) fun x hx _ hs =>
    patchCluster_of_ne d lo hi src h2 (h2R x hx) (fun hxc => hc (hxc ▸ hx)) hs

/-! ## The bytes of a chain -/

variable (m) in
def clusterByte (d : Disk) (c i : Nat) : UInt8 := d (clusterSector m c (i / 512)) (i % 512)

variable (m) in
/-- Byte `i` of the clusters `l` one after the other. -/
def chainByte (d : Disk) (l : List Nat) (i : Nat) : UInt8 :=
  clusterByte m d (l.getD (i / bytesPerCluster m) 0) (i % bytesPerCluster m)

theorem getElem?_flatMap {α : Type*} {f : Nat → List α} {b : Nat} (hb : 0 < b)
    (hlen : ∀ c, (f c).length = b) : ∀ (l : List Nat) (i : Nat), (l.flatMap f)[i]? =
      if i < l.length * b then (f (l.getD (i / b) 0))[i % b]? else none
  | [], i => by simp
  | c :: l, i => by
    rw [List.flatMap_cons, List.getElem?_append, hlen, List.length_cons, Nat.succ_mul]
    by_cases h : i < b
    · rw [if_pos h, if_pos (by omega), Nat.div_eq_of_lt h, Nat.mod_eq_of_lt h]
      rfl
    · obtain ⟨k, rfl⟩ : ∃ k, i = k + b := ⟨i - b, by omega⟩
      rw [if_neg h, Nat.add_sub_cancel, getElem?_flatMap hb hlen l k, Nat.add_div_right _ hb,
        Nat.add_mod_right]
      by_cases hk : k < l.length * b
      · rw [if_pos hk, if_pos (by omega), List.getD_cons_succ]
      · rw [if_neg hk, if_neg (by omega)]

section Bytes

variable (g : Geometry m)

include g

theorem bytesPerCluster_pos : 0 < bytesPerCluster m :=
  Nat.mul_pos g.sectors_pos (by decide)

theorem chainByte_append_left (d : Disk) (l l' : List Nat) {i : Nat}
    (hi : i < l.length * bytesPerCluster m) :
    chainByte m d (l ++ l') i = chainByte m d l i := by
  unfold chainByte
  rw [List.getD_append _ _ _ _ ((Nat.div_lt_iff_lt_mul (bytesPerCluster_pos g)).2 hi)]

theorem chainByte_append_right (d : Disk) (l l' : List Nat) (i : Nat) :
    chainByte m d (l ++ l') (l.length * bytesPerCluster m + i) = chainByte m d l' i := by
  unfold chainByte
  rw [Nat.mul_comm, Nat.mul_add_div (bytesPerCluster_pos g), Nat.mul_add_mod,
    List.getD_append_right _ _ _ _ (Nat.le_add_right _ _), Nat.add_sub_cancel_left]

omit g in
theorem chainByte_singleton (d : Disk) (c : Nat) {i : Nat} (hi : i < bytesPerCluster m) :
    chainByte m d [c] i = clusterByte m d c i := by
  unfold chainByte
  rw [Nat.div_eq_of_lt hi, Nat.mod_eq_of_lt hi]
  rfl

theorem chainByte_congr {d' : Disk} {l : List Nat} (h : ∀ c ∈ l, ∀ s < m.bpb.sectorsPerCluster,
    d' (clusterSector m c s) = d (clusterSector m c s)) {i : Nat}
    (hi : i < l.length * bytesPerCluster m) : chainByte m d' l i = chainByte m d l i := by
  have hq := (Nat.div_lt_iff_lt_mul (bytesPerCluster_pos g)).2 hi
  have hr := Nat.mod_lt i (bytesPerCluster_pos g)
  have hb : bytesPerCluster m = m.bpb.sectorsPerCluster * 512 := rfl
  unfold chainByte clusterByte
  rw [h _ (by rw [List.getD_eq_getElem _ _ hq]; exact List.getElem_mem hq) _ (by omega)]

theorem flatMap_clusterBytes (d : Disk) (l : List Nat) : l.flatMap (clusterBytes m d) =
    (List.range (l.length * bytesPerCluster m)).map (chainByte m d l) := by
  have hpos := bytesPerCluster_pos g
  apply List.ext_getElem?
  intro i
  rw [getElem?_flatMap hpos (length_clusterBytes d), List.getElem?_map]
  by_cases hi : i < l.length * bytesPerCluster m
  · rw [if_pos hi, getElem?_clusterBytes, if_pos (Nat.mod_lt _ hpos), List.getElem?_range hi]
    rfl
  · rw [if_neg hi, List.getElem?_eq_none (by simpa using hi)]
    rfl

/-- The bytes of a file whose chain covers it. -/
theorem contents_eq {e : Dirent} {l : List Nat}
    (h : Chain (fatValue m d) (maxCluster m) (firstCluster e) l)
    (hsize : e.size ≤ l.length * bytesPerCluster m) :
    contents m d e = (List.range e.size).map (chainByte m d l) := by
  rw [contents_chain h, flatMap_clusterBytes g, ← List.map_take, List.take_range,
    Nat.min_eq_left hsize]

end Bytes

/-- The bytes of a cluster that was filled. -/
theorem clusterByte_fill (d : Disk) (c : Nat) (buffer : Nat → UInt8) {size i : Nat}
    (hi : i < bytesPerCluster m) (hs : i < size) :
    clusterByte m (fillCluster m d c buffer size 0 m.bpb.sectorsPerCluster) c i = buffer i := by
  have hb : bytesPerCluster m = m.bpb.sectorsPerCluster * 512 := rfl
  have hsub : clusterSector m c (i / 512) - clusterSector m c 0 = i / 512 := by
    unfold clusterSector
    omega
  unfold clusterByte fillCluster bufferSector
  rw [if_pos (by unfold clusterSector; omega), hsub, if_pos (by omega), Nat.div_add_mod]

theorem clusterByte_patch (d : Disk) (c lo hi : Nat) (src : Nat → UInt8) {i : Nat}
    (hi' : i < bytesPerCluster m) : clusterByte m (patchCluster m d c lo hi src) c i =
      if lo ≤ i ∧ i < hi then src i else clusterByte m d c i := by
  have hb : bytesPerCluster m = m.bpb.sectorsPerCluster * 512 := rfl
  have hsub : clusterSector m c (i / 512) - clusterSector m c 0 = i / 512 := by
    unfold clusterSector
    omega
  have hin : clusterSector m c 0 ≤ clusterSector m c (i / 512) ∧
      clusterSector m c (i / 512) < clusterSector m c m.bpb.sectorsPerCluster ∧ i % 512 < 512 := by
    unfold clusterSector
    omega
  unfold clusterByte patchCluster
  rw [hsub, Nat.div_add_mod']
  exact if_congr (and_iff_right hin) rfl rfl

/-! ## The loops -/

section Loops

variable (g : Geometry m)

include g

theorem appendSeek_spec : ∀ (l : List Nat) (steps c off : Nat) (s : Fs), off ≤ steps →
    Walk (fatValue m s.disk) ChainEnd c (c :: l) → (∀ x ∈ c :: l, x < maxCluster m) →
    (∀ x ∈ c :: l, 2 ≤ fatValue m s.disk x) →
    Total (appendSeek m steps c off) s fun r s' => Reads s s' ∧
      ((∃ pre c' post off', r = some (c', off') ∧ c :: l = pre ++ c' :: post ∧
          off' ≤ bytesPerCluster m ∧ off = pre.length * bytesPerCluster m + off') ∨
        (r = none ∧ (Refused s s' ∨ (l.length + 1) * bytesPerCluster m < off)))
  | l, steps, c, off, s, hsteps, hw, hlt, hlink => by
    unfold appendSeek
    refine (total_ite ..).2 ⟨fun hle => (total_pure ..).2 ⟨.refl s, .inl ?_⟩, fun hgt => ?_⟩
    · exact ⟨[], c, l, off, rfl, rfl, hle, by simp⟩
    have hpos := bytesPerCluster_pos g
    obtain ⟨steps, rfl⟩ : ∃ k, steps = k + 1 := ⟨steps - 1, by omega⟩
    refine (total_bind ..).2 ((nextCluster_spec g (hlt c List.mem_cons_self) s).mono ?_)
    rintro next s₁ ⟨hr, hnext⟩
    refine (total_ite ..).2 ⟨fun hend => (total_pure ..).2 ⟨hr, .inr ⟨rfl, ?_⟩⟩, fun hgo => ?_⟩
    · rcases hnext with rfl | ⟨-, hno⟩
      · -- the chain ends before the file does
        have hnil : l = [] := by
          cases hw with
          | cons _ ht => exact ht.eq_nil_of_stop (.inr hend)
        refine .inr ?_
        simp only [hnil, List.length_nil]
        omega
      · exact .inl hno
    · rcases hnext with rfl | ⟨rfl, -⟩
      swap
      · exact absurd (Nat.le_refl _) hgo
      have hlink₀ := hlink c List.mem_cons_self
      cases hw with
      | cons _ ht =>
      cases l with
      | nil =>
        cases ht with
        | nil hs => unfold ChainEnd at hs; omega
      | cons x l =>
        obtain rfl : fatValue m s.disk c = x := by cases ht with | cons _ _ => rfl
        have hsub : ∀ y ∈ fatValue m s.disk c :: l, y ∈ c :: fatValue m s.disk c :: l :=
          fun y hy => List.mem_cons_of_mem _ hy
        refine (appendSeek_spec l steps _ _ s₁ (by omega) (hr.disk.symm ▸ ht)
          (fun y hy => hlt y (hsub y hy))
          (fun y hy => hr.disk.symm ▸ hlink y (hsub y hy))).mono ?_
        rintro r s₂ ⟨hr₂, ⟨pre, c', post, off', rfl, hl, hoff', hoff⟩ | ⟨rfl, h⟩⟩
        · refine ⟨hr.reads hr₂, .inl ⟨c :: pre, c', post, off', rfl, by simp [hl], hoff', ?_⟩⟩
          rw [List.length_cons, Nat.succ_mul]
          omega
        · refine ⟨hr.reads hr₂, .inr ⟨rfl, h.imp (·.of_extends hr.ext) fun h => ?_⟩⟩
          simp only [List.length_cons]
          rw [Nat.succ_mul]
          omega

theorem appendFill_spec {c : Nat} (h2 : 2 ≤ c) (hc : c < maxCluster m) (buffer : Nat → UInt8)
    (size : Nat) : ∀ (steps w off : Nat) (s : Fs), size - w ≤ steps → off ≤ bytesPerCluster m →
      Total (appendFill m c buffer size steps w off) s fun r s' => ∃ k,
        k ≤ min (size - w) (bytesPerCluster m - off) ∧
        Moves s s' (patchCluster m s.disk c off (off + k) fun p => buffer (w + (p - off))) ∧
        (r = some (w + k) ∧ k = min (size - w) (bytesPerCluster m - off) ∨
          r = none ∧ Refused s s')
  | steps, w, off, s, hsteps, hoff => by
    have hnone : s.disk = patchCluster m s.disk c off (off + 0) fun p =>
        buffer (w + (p - off)) := by
      rw [Nat.add_zero, patchCluster_self]
    unfold appendFill
    refine (total_ite ..).2 ⟨fun hend => (total_pure ..).2 ?_, fun hgo => ?_⟩
    · simp only [Bool.not_eq_true', Bool.and_eq_false_iff, decide_eq_false_iff_not] at hend
      exact ⟨0, Nat.zero_le _, ⟨.refl s, rfl, hnone⟩, .inl ⟨rfl, by omega⟩⟩
    simp only [Bool.not_eq_true', Bool.not_eq_false, Bool.and_eq_true, decide_eq_true_eq] at hgo
    obtain ⟨steps, rfl⟩ : ∃ k, steps = k + 1 := ⟨steps - 1, by omega⟩
    have hq : off / 512 < m.bpb.sectorsPerCluster := by
      have := hgo.2
      unfold bytesPerCluster sectorSize at this
      omega
    have hq' : off / sectorSize % 256 = off / 512 :=
      Nat.mod_eq_of_lt (Nat.lt_trans hq m.bpb.sectorsPerCluster_lt)
    have hl := g.clusterSector_lt h2 hc hq
    simp only [hq', g.clusterToLba_add h2 hc hq]
    refine (total_bind ..).2 ((ataReadSector_spec hl s).mono fun ok s₁ ⟨hr, hsec, hno⟩ => ?_)
    cases ok with
    | false =>
      exact (total_pure ..).2 ⟨0, Nat.zero_le _, ⟨hr.ext, hr.granted, hr.disk.trans hnone⟩,
        .inr ⟨rfl, hno rfl⟩⟩
    | true =>
    refine (total_bind ..).2 ((modifySector_spec _ s₁).mono fun _ s₂ ⟨hr₂, hsec₂⟩ => ?_)
    have h₂ : Reads s s₂ := hr.reads hr₂
    obtain ⟨k, hk⟩ : ∃ k, min (sectorSize - off % sectorSize) (size - w) = k := ⟨_, rfl⟩
    rw [hk] at hsec₂
    simp only [hk]
    replace hk : min (512 - off % 512) (size - w) = k := hk
    clear hq'
    have hoff' : off + k ≤ bytesPerCluster m := by
      have : bytesPerCluster m = m.bpb.sectorsPerCluster * 512 := rfl
      omega
    have hput : putSector s₂.disk (clusterSector m c (off / 512)) s₂.sector =
        patchCluster m s.disk c off (off + k) fun p => buffer (w + (p - off)) := by
      rw [putSector_edit (f := fun sec => copyAt sec (off % 512) k fun i => buffer (w + i))
        (by rw [hsec₂, hsec rfl, h₂.disk]; rfl), h₂.disk]
      exact editSector_eq_patch s.disk c buffer w hgo.2 (by omega)
    refine (total_bind ..).2 ((ataWriteSector_spec hl s₂).mono ?_)
    rintro ok s₃ (⟨rfl, hm, -⟩ | ⟨rfl, hm, hno⟩)
    · rw [hput] at hm
      have h₃ := h₂.trans hm
      refine (appendFill_spec h2 hc buffer size steps (w + k) (off + k) s₃ (by omega)
        hoff').mono ?_
      rintro r s₄ ⟨j, hj, hm₄, hres⟩
      refine ⟨k + j, by omega, ⟨h₃.ext.trans hm₄.ext, hm₄.granted.trans h₃.granted, ?_⟩, ?_⟩
      · rw [hm₄.disk, h₃.disk, patchCluster_patch s.disk c (Nat.le_add_right off k)
          (Nat.le_add_right _ j) (fun p hp => by congr 1; omega), Nat.add_assoc]
      · rcases hres with ⟨rfl, hj'⟩ | ⟨rfl, hno⟩
        · exact .inl ⟨by rw [Nat.add_assoc], by omega⟩
        · exact .inr ⟨rfl, hno.of_extends h₃.ext⟩
    · have h₃ := h₂.reads hm
      exact (total_pure ..).2 ⟨0, Nat.zero_le _, ⟨h₃.ext, h₃.granted, h₃.disk.trans hnone⟩,
        .inr ⟨rfl, hno.of_extends h₂.ext⟩⟩

end Loops

/-! ## Linking a new cluster -/

section Grow

variable {n c t : Nat} {e : Dirent} {l : List Nat} (g : Geometry m)
  (ht : (vol m R d).Tidy (maxCluster m) m.bpb.rootCluster R)
  (he : (vol m R d).dir[n]? = some e) (hl : Live e)
  (hch : Chain (fatValue m d) (maxCluster m) (firstCluster e) (l ++ [c]))
  (h2 : 2 ≤ t) (hlt : t < maxCluster m) (h0 : fatValue m d t = 0)

include g ht he hl hch h2 hlt h0

/-- A cluster that was free is linked behind the tail of an entry's chain. -/
theorem vol_grow (hvol : vol m R d' =
    ⟨Function.update (Function.update (vol m R d).fat t fat32EocMark) c t, (vol m R d).dir⟩) :
    (vol m R d').Tidy (maxCluster m) m.bpb.rootCluster R ∧
      Chain (fatValue m d') (maxCluster m) (firstCluster e) (l ++ [c, t]) ∧
      ((vol m R d).Exact (maxCluster m) R → (vol m R d').Exact (maxCluster m) R) := by
  have hown : (vol m R d).Owns (maxCluster m) n (l ++ [c]) := ⟨e, he, hl, hch⟩
  have hfree : t ∉ l ++ [c] := fun hmem => hown.fat_ne_zero hmem h0
  have hval : ∀ x, fatValue m d' x =
      if x = c then t else if x = t then fat32EocMark else fatValue m d x := fun x => by
    have := congrFun (congrArg Vol.fat hvol) x
    simp only [Function.update_apply] at this
    exact this
  have htc : t ≠ c := fun htc => hfree (by simp [htc])
  have hch' : Chain (fatValue m d') (maxCluster m) (firstCluster e) (l ++ [c, t]) := by
    refine hch.snoc hfree h2 hlt (Nat.lt_trans hlt g.maxCluster_lt) (fun x hx => ?_) ?_ ?_
    · have hnd := hch.walk.nodup
      have hxc : x ≠ c := by
        rintro rfl
        exact (List.nodup_append.1 hnd).2.2 x hx x (by simp) rfl
      have hxt : x ≠ t := fun hxt => hfree (by simp [← hxt, hx])
      rw [hval, if_neg hxc, if_neg hxt]
    · rw [hval, if_pos rfl]
    · rw [hval, if_neg htc, if_pos rfl]
      exact eoc_le_eocMark
  have hmine : ∀ x ∈ l ++ [c, t], (vol m R d).Mine (maxCluster m) n x := by
    intro x hx
    by_cases hxt : x = t
    · exact .inl (by rw [hxt]; exact h0)
    · refine .inr ⟨l ++ [c], hown, ?_⟩
      simpa [hxt] using hx
  have hset : (vol m R d).SetSlot (maxCluster m) (vol m R d') n e := by
    refine ⟨fun i _ => by rw [hvol], by rw [hvol]; exact he, fun x hx => ?_⟩
    have hxc : x ≠ c := fun hxc => hx (hmine x (by simp [hxc]))
    have hxt : x ≠ t := fun hxt => hx (hmine x (by simp [hxt]))
    exact (hval x).trans (by rw [if_neg hxc, if_neg hxt]; rfl)
  refine ⟨ht.setSlot hset (ht.before_live he hl) hl.first_ne fun _ => ⟨_, hch', hmine⟩, hch',
    fun hx => hx.setSlot ht hset (fun _ => hx.name_ne he hl rfl) ?_⟩
  intro x _ _ hne hm
  refine ⟨_, hl, hch', ?_⟩
  rcases hm with hx0 | ⟨l', hl', hxl⟩
  · by_contra hmem
    have hxc : x ≠ c := fun hxc => hmem (by simp [hxc])
    have hxt : x ≠ t := fun hxt => hmem (by simp [hxt])
    exact hne ((hval x).trans (by rw [if_neg hxc, if_neg hxt]; exact hx0))
  · rw [hl'.det hown] at hxl
    simp only [List.mem_append, List.mem_cons, List.not_mem_nil, or_false] at hxl ⊢
    exact hxl.imp id .inl

end Grow

/-- The clusters that `find_free_cluster` may hand out. -/
def freeClusters (m : Mount) (d : Disk) : Finset Nat :=
  (Finset.range (maxCluster m)).filter fun c => 2 ≤ c ∧ fatValue m d c = 0

theorem mem_freeClusters {c : Nat} :
    c ∈ freeClusters m d ↔ c < maxCluster m ∧ 2 ≤ c ∧ fatValue m d c = 0 := by
  rw [freeClusters, Finset.mem_filter, Finset.mem_range]

theorem freeClusters_eq_empty (h : NoFree m d) : freeClusters m d = ∅ := by
  refine Finset.eq_empty_of_forall_notMem fun c hc => ?_
  obtain ⟨hlt, h2, h0⟩ := mem_freeClusters.1 hc
  exact h c h2 hlt h0

/-- Linking a free cluster behind one in use takes it, and no other. -/
theorem card_freeClusters_take {c t : Nat} (h2 : 2 ≤ t) (hlt : t < maxCluster m)
    (hfree : fatValue m d t = 0) (hused : fatValue m d c ≠ 0)
    (hval : ∀ x, fatValue m d' x =
      if x = c then t else if x = t then fat32EocMark else fatValue m d x) :
    (freeClusters m d').card + 1 = (freeClusters m d).card := by
  have htc : t ≠ c := fun htc => hused (htc ▸ hfree)
  have herase : freeClusters m d' = (freeClusters m d).erase t := by
    ext x
    rw [Finset.mem_erase, mem_freeClusters, mem_freeClusters, hval]
    by_cases hxc : x = c
    · rw [if_pos hxc, hxc]
      exact ⟨fun h => by omega, fun h => absurd h.2.2.2 hused⟩
    · rw [if_neg hxc]
      by_cases hxt : x = t
      · rw [if_pos hxt]
        exact ⟨fun h => absurd h.2.2 (by decide), fun h => absurd hxt h.1⟩
      · rw [if_neg hxt]
        exact ⟨fun h => ⟨hxt, h⟩, fun h => h.2⟩
  rw [herase]
  exact Finset.card_erase_add_one (mem_freeClusters.2 ⟨hlt, h2, hfree⟩)

/-- What the loop that links new clusters behind `tail` leaves alone: the directory, the links of
the other clusters in use, and the bytes of all of them. -/
structure Grown (m : Mount) (R : List Nat) (d d' : Disk) (tail : Nat) : Prop where
  dir : (vol m R d').dir = (vol m R d).dir
  fat : ∀ c, c ≠ tail → fatValue m d c ≠ 0 → fatValue m d' c = fatValue m d c
  used : fatValue m d' tail ≠ 0
  bytes : ∀ c, 2 ≤ c → fatValue m d c ≠ 0 → ∀ k < m.bpb.sectorsPerCluster,
    d' (clusterSector m c k) = d (clusterSector m c k)

theorem appendGrow_spec (g : Geometry m) (buffer : Nat → UInt8) (size : Nat) {n : Nat}
    {e : Dirent} (hl : Live e) :
    ∀ (steps c w : Nat) (s : Fs) (l : List Nat), size - w ≤ steps → Safe m R s →
      (vol m R s.disk).dir[n]? = some e →
      Chain (fatValue m s.disk) (maxCluster m) (firstCluster e) (l ++ [c]) →
      Total (appendGrow m buffer size steps c w) s fun ok s' => Extends s s' ∧ Safe m R s' ∧
        (vol m R s'.disk).dir = (vol m R s.disk).dir ∧
          (Whole m R s → Whole m R s' ∧ Grown m R s.disk s'.disk c ∧
          (∃ more, Chain (fatValue m s'.disk) (maxCluster m) (firstCluster e) (l ++ [c] ++ more) ∧
            more.length + (freeClusters m s'.disk).card = (freeClusters m s.disk).card ∧
            more.length * bytesPerCluster m < size - w + bytesPerCluster m ∧
            (ok = false → more.length * bytesPerCluster m < size - w) ∧
            (ok = true → size - w ≤ more.length * bytesPerCluster m ∧
              ∀ i < size - w, chainByte m s'.disk more i = buffer (w + i))) ∧
          (ok = false → NoFree m s'.disk))
  | steps, c, w, s, l, hsteps, hs, he, hch => by
    have hused : fatValue m s.disk c ≠ 0 := by
      have := hch.link c (by simp)
      omega
    unfold appendGrow
    refine (total_ite ..).2 ⟨fun hend => (total_pure ..).2 ⟨.refl s, hs, rfl, fun hw =>
      ⟨hw, ?_, ?_, ?_⟩⟩, fun hgo => ?_⟩
    · exact ⟨rfl, fun _ _ _ => rfl, hused, fun _ _ _ _ _ => rfl⟩
    · refine ⟨[], by rwa [List.append_nil], Nat.zero_add _, ?_, by simp, fun _ =>
        ⟨by omega, fun i hi => by omega⟩⟩
      rw [List.length_nil, Nat.zero_mul]
      exact Nat.add_pos_right _ (bytesPerCluster_pos g)
    · simp
    obtain ⟨steps, rfl⟩ : ∃ k, steps = k + 1 := ⟨steps - 1, by omega⟩
    refine (total_bind ..).2 ((findFreeCluster_spec g s).mono ?_)
    rintro r s₁ (⟨t, rfl, hg⟩ | ⟨rfl, hr, hfree⟩)
    swap
    · refine (total_pure ..).2 ⟨hr.ext, hs.reads hr, by rw [hr.disk], fun hw =>
        ⟨hw.reads hr, ?_, ?_, fun _ => ?_⟩⟩
      · rw [hr.disk]
        exact ⟨rfl, fun _ _ _ => rfl, hused, fun _ _ _ _ _ => rfl⟩
      · rw [hr.disk]
        have hpos := bytesPerCluster_pos g
        refine ⟨[], by rwa [List.append_nil], Nat.zero_add _, ?_, fun _ => ?_, by simp⟩
        · rw [List.length_nil, Nat.zero_mul]
          exact Nat.add_pos_right _ hpos
        · rw [List.length_nil, Nat.zero_mul]
          omega
      · rw [hr.disk]
        exact hfree.resolve_left fun hno => hno.not_reliable hw.reliable
    have hs₁ := hs.grants hg
    have hfault : ∀ {P : Prop} s', Extends s s' → Safe m R s' →
        (vol m R s'.disk).dir = (vol m R s.disk).dir → s.faults ≠ [] →
        Extends s s' ∧ Safe m R s' ∧ (vol m R s'.disk).dir = (vol m R s.disk).dir ∧
          (Whole m R s → P) :=
      fun s' hext hs' hdir hne => ⟨hext, hs', hdir, fun hw => absurd hw.reliable hne⟩
    generalize hk : min (size - w) (bytesPerCluster m) = k
    refine (total_bind ..).2 ((writeBufferToCluster_spec g hg.two_le hg.lt _ k s₁).mono ?_)
    rintro ok s₂ ⟨j, hj, hm₂, hok₂, hno₂⟩
    rw [hg.disk] at hm₂
    have hvol₂ : vol m R s₂.disk = vol m R s.disk := by
      rw [hm₂.disk]
      exact vol_fillCluster g s.disk _ _ hg.two_le hs.root_two_le
        (hs.not_root_of_free hg.free) hj
    have hval₂ : fatValue m s₂.disk = fatValue m s.disk := congrArg Vol.fat hvol₂
    have hs₂ : Safe m R s₂ := hs₁.moves hm₂ (by rw [← hm₂.disk, hvol₂]; exact hs.tidy)
    have hext₂ := hg.ext.trans hm₂.ext
    cases ok with
    | false => exact (total_pure ..).2 (hfault s₂ hext₂ hs₂ (by rw [hvol₂])
        ((hno₂ rfl).of_extends hg.ext).not_reliable)
    | true =>
    refine (total_bind ..).2 ((writeFatEntry_spec g hg.lt _ s₂).mono ?_)
    rintro ok s₃ ⟨k₃, hk₃, hm₃, hok₃, hno₃⟩
    have hs₃ : Safe m R s₃ := hs₂.moves hm₃ (tidy_take g hs₂.tidy hg.lt
      (by rw [hval₂]; exact hg.free) hk₃)
    have hext₃ := hext₂.trans hm₃.ext
    have hdir₃ : (vol m R s₃.disk).dir = (vol m R s.disk).dir := by
      rw [hm₃.disk, ← hvol₂]
      rcases vol_fatWrite_cases (R := R) g s₂.disk (v := fat32EocMark) hg.lt hk₃ with
        h | h <;> rw [h]
    cases ok with
    | false => exact (total_pure ..).2 (hfault s₃ hext₃ hs₃ hdir₃
        ((hno₃ rfl).1.of_extends hext₂).not_reliable)
    | true =>
    obtain rfl := (hok₃ rfl).1
    have hvol₃ : vol m R s₃.disk =
        ⟨Function.update (vol m R s.disk).fat t fat32EocMark, (vol m R s.disk).dir⟩ := by
      rw [hm₃.disk, vol_fatWrite g _ hg.lt g.fatCount_pos (Nat.le_refl _), hvol₂, eocMark_mod]
    have hc : c < maxCluster m := hch.lt c (by simp)
    have htmod : t % 268435456 = t := by
      have h1 := g.maxCluster_lt
      have h2 := hg.lt
      unfold fat32Eoc at h1
      exact Nat.mod_eq_of_lt (by omega)
    refine (total_bind ..).2 ((writeFatEntry_spec g hc _ s₃).mono ?_)
    rintro ok s₄ ⟨k₄, hk₄, hm₄, hok₄, hno₄⟩
    have hext₄ := hext₃.trans hm₄.ext
    have hgrow : 0 < k₄ → vol m R s₄.disk = ⟨Function.update
        (Function.update (vol m R s.disk).fat t fat32EocMark) c t, (vol m R s.disk).dir⟩ := by
      intro hpos
      rw [hm₄.disk, vol_fatWrite g _ hc hpos hk₄, hvol₃, htmod]
    have hs₄ : Safe m R s₄ := by
      refine hs₃.moves hm₄ ?_
      rw [← hm₄.disk]
      rcases Nat.eq_zero_or_pos k₄ with rfl | hpos
      · rw [hm₄.disk, fatWrite_self]
        exact hs₃.tidy
      · exact (vol_grow g hs.tidy he hl hch hg.two_le hg.lt hg.free (hgrow hpos)).1
    have hdir₄ : (vol m R s₄.disk).dir = (vol m R s.disk).dir := by
      rw [hm₄.disk, ← hdir₃]
      rcases vol_fatWrite_cases (R := R) g s₃.disk (v := t) hc hk₄ with h | h <;> rw [h]
    cases ok with
    | false => exact (total_pure ..).2 (hfault s₄ hext₄ hs₄ hdir₄
        ((hno₄ rfl).1.of_extends hext₃).not_reliable)
    | true =>
    obtain rfl := (hok₄ rfl).1
    have hvol₄ := hgrow g.fatCount_pos
    obtain ⟨-, hch₄, hex₄⟩ := vol_grow g hs.tidy he hl hch hg.two_le hg.lt hg.free hvol₄
    have he₄ : (vol m R s₄.disk).dir[n]? = some e := by rw [hvol₄]; exact he
    have happ : l ++ [c, t] = (l ++ [c]) ++ [t] := by simp
    rw [happ] at hch₄
    have hval₄ : ∀ x, fatValue m s₄.disk x =
        if x = c then t else if x = t then fat32EocMark else fatValue m s.disk x := fun x => by
      have := congrFun (congrArg Vol.fat hvol₄) x
      simp only [Function.update_apply] at this
      exact this
    refine (appendGrow_spec g buffer size hl steps t (w + k) s₄ (l ++ [c])
      (by have := bytesPerCluster_pos g; omega) hs₄ he₄ hch₄).mono ?_
    rintro ok s₅ ⟨hext₅, hs₅, hdir₅, hwhole⟩
    refine ⟨hext₄.trans hext₅, hs₅, hdir₅.trans hdir₄, fun hw => ?_⟩
    have hw₄ : Whole m R s₄ := by
      refine ⟨hext₄.reliable hw.reliable, hex₄ hw.exact, ?_⟩
      rw [hm₄.disk, hm₃.disk, hm₂.disk]
      exact copiesEqual_fatWrite g _ hc (copiesEqual_fatWrite g _ hg.lt
        (copiesEqual_fillCluster g _ _ _ hw.copies))
    obtain ⟨hw₅, hgrown, ⟨more, hmore, hcard, hfew, hshort, hbytes⟩, hfull⟩ := hwhole hw₄
    have hcard₄ := card_freeClusters_take hg.two_le hg.lt hg.free hused hval₄
    have hpos := bytesPerCluster_pos g
    have hdata₄ : ∀ x q, s₄.disk (clusterSector m x q) = s₂.disk (clusterSector m x q) := by
      intro x q
      have hge : m.dataStartLba ≤ clusterSector m x q := by
        unfold clusterSector
        omega
      rw [hm₄.disk, fatWrite_of_ge g _ _ hc (Nat.le_refl _) hge, hm₃.disk,
        fatWrite_of_ge g _ _ hg.lt (Nat.le_refl _) hge]
    have htc : t ≠ c := by
      rintro rfl
      exact hused hg.free
    have h2c : 2 ≤ c := hch.two_le (by simp)
    refine ⟨hw₅, ⟨?_, fun x hxc hx => ?_, ?_, fun x h2x hx q hq => ?_⟩,
      ⟨t :: more, by simpa using hmore, ?_, ?_, fun hok => ?_, fun hok => ?_⟩, hfull⟩
    · rw [hgrown.dir, hvol₄]
    · have hxt : x ≠ t := by
        rintro rfl
        exact hx hg.free
      have hx₄ : fatValue m s₄.disk x = fatValue m s.disk x := by
        rw [hval₄, if_neg hxc, if_neg hxt]
      rw [hgrown.fat x hxt (by rw [hx₄]; exact hx), hx₄]
    · have hc₄ : fatValue m s₄.disk c = t := by rw [hval₄, if_pos rfl]
      have ht0 : t ≠ 0 := by
        have := hg.two_le
        omega
      rw [hgrown.fat c htc.symm (by rw [hc₄]; exact ht0), hc₄]
      exact ht0
    · have hxt : x ≠ t := by
        rintro rfl
        exact hx hg.free
      have hx₄ : fatValue m s₄.disk x ≠ 0 := by
        rw [hval₄]
        split
        · have := hg.two_le
          omega
        · exact hx
      rw [hgrown.bytes x h2x hx₄ q hq, hdata₄ x q, hm₂.disk,
        fillCluster_of_ne _ _ _ hg.two_le h2x hxt hj hq]
    · rw [List.length_cons]
      omega
    · rw [List.length_cons, Nat.succ_mul]
      by_cases hlast : size - w ≤ bytesPerCluster m
      · have hnil : more.length = 0 := Nat.eq_zero_of_not_pos fun hlen => by
          have := Nat.le_mul_of_pos_left (bytesPerCluster m) hlen
          omega
        rw [hnil, Nat.zero_mul]
        omega
      · omega
    · have := hshort hok
      rw [List.length_cons, Nat.succ_mul]
      omega
    · -- the new cluster holds the next bytes of the buffer, the ones behind it the rest
      obtain ⟨hroom, hrest⟩ := hbytes hok
      refine ⟨by rw [List.length_cons, Nat.succ_mul]; omega, fun i hi => ?_⟩
      by_cases hib : i < bytesPerCluster m
      · have ht₄ : fatValue m s₄.disk t ≠ 0 := by
          rw [hval₄, if_neg htc, if_pos rfl]
          decide
        rw [← List.singleton_append, chainByte_append_left g _ [t] more (by simpa using hib),
          chainByte_singleton _ _ hib]
        have hq : i / 512 < m.bpb.sectorsPerCluster := by
          have hb : bytesPerCluster m = m.bpb.sectorsPerCluster * 512 := rfl
          omega
        unfold clusterByte
        rw [hgrown.bytes t hg.two_le ht₄ _ hq, hdata₄, hm₂.disk, hok₂ rfl]
        exact clusterByte_fill s.disk t (fun i => buffer (w + i)) hib (by omega)
      · obtain ⟨i', rfl⟩ : ∃ i', i = [t].length * bytesPerCluster m + i' :=
          ⟨i - bytesPerCluster m, by simp only [List.length_singleton]; omega⟩
        simp only [List.length_singleton, Nat.one_mul] at hi ⊢
        have hright := chainByte_append_right g s₅.disk [t] more i'
        rw [List.length_singleton, Nat.one_mul, List.singleton_append] at hright
        rw [hright, hrest i' (by omega)]
        congr 1
        omega

/-! ## `fs_append_file` -/

/-- The chains of the entries in the other slots stay, and their bytes. -/
def Others (m : Mount) (R : List Nat) (d d' : Disk) (n : Nat) : Prop :=
  ∀ (i : Nat) (x : Dirent) (k : List Nat), i ≠ n → (vol m R d).dir[i]? = some x → Live x →
    Chain (fatValue m d) (maxCluster m) (firstCluster x) k →
    Chain (fatValue m d') (maxCluster m) (firstCluster x) k ∧ contents m d' x = contents m d x

/-- The chain of the entry `e` in slot `n` grew from `l` to `l₁` behind the end of the file; the
directory, the other files and the bytes of this one are where they were. -/
structure Extended (m : Mount) (R : List Nat) (d d₁ : Disk) (n : Nat) (e : Dirent)
    (l l₁ : List Nat) : Prop where
  dir : (vol m R d₁).dir = (vol m R d).dir
  others : Others m R d d₁ n
  old : Chain (fatValue m d) (maxCluster m) (firstCluster e) l
  chain : Chain (fatValue m d₁) (maxCluster m) (firstCluster e) l₁
  longer : l <+: l₁
  covers : e.size ≤ l.length * bytesPerCluster m
  bytes : ∀ i < e.size, chainByte m d₁ l₁ i = chainByte m d l i

/-- A chain that only grew, and a tail cluster that only changed past the end of the file. -/
theorem extended_append (g : Geometry m) {n off : Nat} {e : Dirent} {l more : List Nat} {c hi : Nat}
    {src : Nat → UInt8} {d₂ : Disk}
    (ht : (vol m R d).Tidy (maxCluster m) m.bpb.rootCluster R)
    (he : (vol m R d).dir[n]? = some e) (hl : Live e)
    (hch : Chain (fatValue m d) (maxCluster m) (firstCluster e) (l ++ [c]))
    (hoff : off ≤ bytesPerCluster m) (hsize : e.size = l.length * bytesPerCluster m + off)
    (hp : d₂ = patchCluster m d c off hi src) (hvol : vol m R d₂ = vol m R d)
    (hg : Grown m R d₂ d' c)
    (hmore : Chain (fatValue m d') (maxCluster m) (firstCluster e) (l ++ [c] ++ more)) :
    Extended m R d d' n e (l ++ [c]) (l ++ [c] ++ more) := by
  have hval : fatValue m d₂ = fatValue m d := congrArg Vol.fat hvol
  have hown : (vol m R d).Owns (maxCluster m) n (l ++ [c]) := ⟨e, he, hl, hch⟩
  have h2c : 2 ≤ c := hch.two_le (by simp)
  have hlen : (l ++ [c]).length * bytesPerCluster m =
      l.length * bytesPerCluster m + bytesPerCluster m := by
    rw [List.length_append, List.length_singleton, Nat.succ_mul]
  -- the bytes of a cluster in use other than the tail
  have hbytes : ∀ x, 2 ≤ x → x ≠ c → fatValue m d x ≠ 0 → ∀ k < m.bpb.sectorsPerCluster,
      d' (clusterSector m x k) = d (clusterSector m x k) := by
    intro x h2x hxc hx k hk
    rw [hg.bytes x h2x (by rw [hval]; exact hx) k hk, hp]
    exact patchCluster_of_ne d off hi src h2c h2x hxc hk
  refine ⟨by rw [hg.dir, hvol], fun i x l' hin hx hlx hl' => ?_, hch, hmore,
    List.prefix_append _ _, by omega, fun i hi' => ?_⟩
  · have hown' : (vol m R d).Owns (maxCluster m) i l' := ⟨x, hx, hlx, hl'⟩
    have hne : ∀ y ∈ l', y ≠ c := by
      rintro y hy rfl
      exact ht.apart i n l' _ hin hown' hown hy (by simp)
    have hl₂ : Chain (fatValue m d') (maxCluster m) (firstCluster x) l' :=
      hl'.congr fun y hy => by
        rw [hg.fat y (hne y hy) (by rw [hval]; exact hown'.fat_ne_zero hy), hval]
    exact ⟨hl₂, contents_congr hl' hl₂ fun y hy =>
      hbytes y (hl'.two_le hy) (hne y hy) (hown'.fat_ne_zero hy)⟩
  · rw [chainByte_append_left g d' (l ++ [c]) more (by omega)]
    by_cases hil : i < l.length * bytesPerCluster m
    · rw [chainByte_append_left g d' l [c] hil, chainByte_append_left g d l [c] hil]
      refine chainByte_congr g (fun y hy => ?_) hil
      refine hbytes y (hch.two_le (by simp [hy])) ?_ (hown.fat_ne_zero (by simp [hy]))
      rintro rfl
      exact (List.nodup_append.1 hch.walk.nodup).2.2 y hy y (by simp) rfl
    · obtain ⟨j, rfl⟩ : ∃ j, i = l.length * bytesPerCluster m + j :=
        ⟨i - l.length * bytesPerCluster m, by omega⟩
      have hj : j < bytesPerCluster m := by omega
      have hq : j / 512 < m.bpb.sectorsPerCluster := by
        have hb : bytesPerCluster m = m.bpb.sectorsPerCluster * 512 := rfl
        omega
      rw [chainByte_append_right g, chainByte_append_right g, chainByte_singleton _ _ hj,
        chainByte_singleton _ _ hj]
      have hsame : clusterByte m d' c j = clusterByte m d₂ c j := by
        unfold clusterByte
        rw [hg.bytes c h2c (by rw [hval]; exact hown.fat_ne_zero (by simp)) _ hq]
      rw [hsame, hp, clusterByte_patch _ _ _ _ _ hj, if_neg (by omega)]

theorem Extended.listing_eq (g : Geometry m) {n : Nat} {e : Dirent} {l l₁ : List Nat}
    (ht : (vol m R d).Tidy (maxCluster m) m.bpb.rootCluster R)
    (he : (vol m R d).dir[n]? = some e) (h : Extended m R d d' n e l l₁) :
    listing m R d' = listing m R d := by
  refine listing_congr h.dir fun x hx hlx => ?_
  obtain ⟨i, hi⟩ := List.getElem?_of_mem hx
  by_cases hin : i = n
  · subst hin
    obtain rfl := Option.some.inj (he.symm.trans hi)
    have hcov : e.size ≤ l₁.length * bytesPerCluster m :=
      Nat.le_trans h.covers (Nat.mul_le_mul_right _ h.longer.length_le)
    rw [contents_eq g h.chain hcov, contents_eq g h.old h.covers]
    exact List.map_congr_left fun i hi => h.bytes i (List.mem_range.1 hi)
  · obtain ⟨k, hk⟩ := ht.chained i x hi hlx
    exact (h.others i x k hin hi hlx hk).2

/-- What an append does on a reliable disk. -/
inductive AppendOut (m : Mount) (R : List Nat) (name : NameArg) (buffer : BufferArg) (size : UInt32)
    (d : Disk) : Bool → Disk → Prop
  | empty : size = 0 → AppendOut m R name buffer size d true d
  | done {nm sn : List UInt8} {n : Nat} {e : Dirent} {l l₁ : List Nat} {d₁ d' : Disk} :
      name = some nm → makeShortNameChecked nm = some sn → Entry m R d sn n e →
      e.attr &&& 0x10 = 0 → e.size + size.toNat < 4294967296 → Extended m R d d₁ n e l l₁ →
      e.size + size.toNat ≤ l₁.length * bytesPerCluster m →
      (∀ i < size.toNat, chainByte m d₁ l₁ (e.size + i) = (buffer.getD fun _ => 0) i) →
      SlotEdit m R d₁ d' n (fun x => x.withSize (e.size + size.toNat)) →
      AppendOut m R name buffer size d true d'
  | unchanged : AppendOut m R name buffer size d false d
  | cut {n : Nat} {e : Dirent} {l l₁ : List Nat} {d' : Disk} :
      (vol m R d).dir[n]? = some e → Extended m R d d' n e l l₁ →
      AppendOut m R name buffer size d false d'

theorem AppendOut.listing_eq (g : Geometry m) {name : NameArg} {buffer : BufferArg} {size : UInt32}
    {ok : Bool} (ht : (vol m R d).Tidy (maxCluster m) m.bpb.rootCluster R)
    (h : AppendOut m R name buffer size d ok d') (hok : ok = false) :
    listing m R d' = listing m R d := by
  cases h with
  | empty | done => cases hok
  | unchanged => rfl
  | cut he h => exact h.listing_eq g ht he

theorem fsAppendFile_spec (g : Geometry m) (name : NameArg) (buffer : BufferArg) (size : UInt32)
    (hs : Safe m R s) :
    Total (fsAppendFile m name buffer size) s fun ok s' => Extends s s' ∧ Safe m R s' ∧
      (Whole m R s → Whole m R s' ∧ AppendOut m R name buffer size s.disk ok s'.disk) := by
  have hkeep : ∀ s', Reads s s' → Extends s s' ∧ Safe m R s' ∧
      (Whole m R s → Whole m R s' ∧ AppendOut m R name buffer size s.disk false s'.disk) :=
    fun s' hr => ⟨hr.ext, hs.reads hr, fun hw => ⟨hw.reads hr, hr.disk.symm ▸ .unchanged⟩⟩
  cases name with
  | none => exact (total_pure ..).2 (hkeep s (.refl s))
  | some nm =>
  refine (total_ite ..).2 ⟨fun _ => (total_pure ..).2 (hkeep s (.refl s)), fun _ => ?_⟩
  refine (total_ite ..).2 ⟨fun hzero => (total_pure ..).2
    ⟨.refl s, hs, fun hw => ⟨hw, .empty hzero⟩⟩, fun hzero => ?_⟩
  have hpos : 0 < size.toNat := Nat.pos_of_ne_zero fun h =>
    hzero (UInt32.toNat_inj.1 (h.trans UInt32.toNat_zero.symm))
  cases hsn : makeShortNameChecked nm with
  | none => exact (total_pure ..).2 (hkeep s (.refl s))
  | some sn =>
  refine (total_bind ..).2 ((findRootEntryAt_spec g nm s hs.tidy).mono ?_)
  rintro r s₁ ⟨hr, ⟨f, n, rfl, hf, hname⟩ | ⟨rfl, -⟩⟩
  swap
  · exact (total_pure ..).2 (hkeep s₁ hr)
  rw [makeShortName_of_checked hsn] at hname
  refine (total_ite ..).2 ⟨fun _ => (total_pure ..).2 (hkeep s₁ hr), fun hattr => ?_⟩
  refine (total_ite ..).2 ⟨fun _ => (total_pure ..).2 (hkeep s₁ hr), fun hfirst => ?_⟩
  simp only [Bool.or_eq_true, decide_eq_true_eq, not_or, Nat.not_lt] at hfirst
  -- the size does not wrap
  have hsum : f.entry.size + size.toNat < 4294967296 := by
    have h1 := f.entry.size_lt
    have h2 := size.toNat_lt
    have h3 := hfirst.2
    unfold u32 at h3
    omega
  obtain ⟨l, hch⟩ := hs.tidy.chained n f.entry hf.dir hf.live
  have hch₁ : Chain (fatValue m s₁.disk) (maxCluster m) (firstCluster f.entry) l :=
    hr.disk.symm ▸ hch
  obtain ⟨c₀, l₀, rfl⟩ := List.exists_cons_of_ne_nil (hch.ne_nil (by omega))
  obtain rfl : firstCluster f.entry = c₀ := by cases hch.walk with | cons _ _ => rfl
  refine (total_bind ..).2 ((appendSeek_spec g l₀ _ _ _ s₁ (Nat.le_refl _) hch₁.walk hch₁.lt
    hch₁.link).mono ?_)
  rintro r s₂ ⟨hr₂, ⟨pre, c, post, off, rfl, hsplit, hoff, hsize⟩ | ⟨rfl, -⟩⟩
  swap
  · exact (total_pure ..).2 (hkeep s₂ (hr.reads hr₂))
  have h₂ : Reads s s₂ := hr.reads hr₂
  have hcmem : c ∈ firstCluster f.entry :: l₀ := by rw [hsplit]; simp
  have hc : c < maxCluster m := hch.lt c hcmem
  have h2 : 2 ≤ c := hch.two_le hcmem
  refine (total_bind ..).2 ((readFatEntry_spec g hc s₂).mono ?_)
  rintro r s₃ ⟨hr₃, rfl | ⟨rfl, -⟩⟩
  swap
  · exact (total_pure ..).2 (hkeep s₃ (h₂.reads hr₃))
  have h₃ : Reads s s₃ := h₂.reads hr₃
  refine (total_ite ..).2 ⟨fun _ => (total_pure ..).2 (hkeep s₃ h₃), fun htail => ?_⟩
  -- the cluster the walk ended at is the tail
  have hpost : post = [] := by
    rw [h₂.disk] at htail
    have hw := hch.walk
    rw [hsplit] at hw
    obtain ⟨l₁, hl₁⟩ := hw.last_of_stop_next (c := c) (by simp)
      (.inr (Nat.not_lt.1 htail))
    have hnd := hw.nodup
    rw [hl₁] at hnd hsplit
    have hlen := congrArg List.length hl₁
    cases post with
    | nil => rfl
    | cons y post =>
      exfalso
      have hy : c ∈ l₁ := by
        have hget : (l₁ ++ [c])[pre.length]? = some c := by rw [← hl₁]; simp
        rw [List.getElem?_append_left (by simp at hlen; omega)] at hget
        exact List.mem_of_getElem? hget
      exact (List.nodup_append.1 hnd).2.2 c hy c (by simp) rfl
  subst hpost
  have hch' : Chain (fatValue m s.disk) (maxCluster m) (firstCluster f.entry) (pre ++ [c]) :=
    hsplit ▸ hch
  have hoffR : c ∉ R := hs.tidy.off_root n _ ⟨f.entry, hf.dir, hf.live, hch⟩ hcmem
  refine (total_bind ..).2 ((appendFill_spec g h2 hc _ size.toNat size.toNat 0 off s₃ (by omega)
    hoff).mono ?_)
  rintro r s₄ ⟨k, hk, hm₄, hres⟩
  rw [h₃.disk] at hm₄
  have hvol₄ : vol m R s₄.disk = vol m R s.disk := by
    rw [hm₄.disk]
    exact vol_patchCluster g s.disk _ _ _ h2 hs.root_two_le hoffR
  have hs₄ : Safe m R s₄ := (hs.reads h₃).moves hm₄ (by rw [← hm₄.disk, hvol₄]; exact hs.tidy)
  have hext₄ := h₃.ext.trans hm₄.ext
  have hfault : ∀ {ok : Bool} s', Extends s s' → Safe m R s' → s.faults ≠ [] →
      Extends s s' ∧ Safe m R s' ∧ (Whole m R s → Whole m R s' ∧
        AppendOut m R (some nm) buffer size s.disk ok s'.disk) :=
    fun s' hext hs' hne => ⟨hext, hs', fun hw => absurd hw.reliable hne⟩
  rcases hres with ⟨rfl, hkmax⟩ | ⟨rfl, hno⟩
  swap
  · exact (total_pure ..).2 (hfault s₄ hext₄ hs₄ (hno.of_extends h₃.ext).not_reliable)
  have he₄ : (vol m R s₄.disk).dir[n]? = some f.entry := by rw [hvol₄]; exact hf.dir
  have hch₄ : Chain (fatValue m s₄.disk) (maxCluster m) (firstCluster f.entry) (pre ++ [c]) := by
    rw [show fatValue m s₄.disk = fatValue m s.disk from congrArg Vol.fat hvol₄]
    exact hch'
  refine (total_bind ..).2 ((appendGrow_spec g _ size.toNat hf.live size.toNat c _ s₄ pre (by omega)
    hs₄ he₄ hch₄).mono ?_)
  rintro ok s₅ ⟨hext₅, hs₅, hdir₅, hwhole₅⟩
  have hext := hext₄.trans hext₅
  have hw₄ : Whole m R s → Whole m R s₄ := fun hw => by
    refine ⟨hext₄.reliable hw.reliable, hvol₄.symm ▸ hw.exact, ?_⟩
    rw [hm₄.disk]
    exact copiesEqual_congr g (fun x hx => patchCluster_of_lt _ _ _ _ _ hx) hw.copies
  cases ok with
  | false =>
    refine (total_pure ..).2 ⟨hext, hs₅, fun hw => ?_⟩
    obtain ⟨hw₅, hgrown, ⟨more, hmore, -⟩, -⟩ := hwhole₅ (hw₄ hw)
    exact ⟨hw₅, .cut hf.dir (extended_append g hs.tidy hf.dir hf.live hch' hoff hsize hm₄.disk
      hvol₄ hgrown hmore)⟩
  | true =>
  refine (editSlot_spec g hs hf.slot (editsSlot_setSize f.index _)).mono ?_
  rintro ok s₆ (⟨rfl, hm₆, hse⟩ | ⟨rfl, hm₆, hno⟩)
  swap
  · exact hfault s₆ (hext.trans hm₆.ext) (hs₅.reads hm₆) (hno.of_extends hext).not_reliable
  have he₅ : (vol m R s₅.disk).dir[n]? = some f.entry := by rw [hdir₅]; exact he₄
  obtain ⟨l₅, hch₅⟩ := hs₅.tidy.chained n f.entry he₅ hf.live
  have hlive : Live (f.entry.withSize (u32 (f.entry.size + size.toNat))) :=
    (live_congr (Dirent.withSize_apply _ _ (by omega)) (by simp)).2 hf.live
  obtain ⟨htidy, hexact⟩ := hse.kept g hs₅ he₅ hf.live hch₅ rfl hlive (by simp) (by simp)
  have hext₆ := hext.trans hm₆.ext
  refine ⟨hext₆, hs₅.moves hm₆ htidy, fun hw => ?_⟩
  obtain ⟨hw₅, hgrown, ⟨more, hmore, -, -, -, hbytes⟩, -⟩ := hwhole₅ (hw₄ hw)
  obtain ⟨hroom, hrest⟩ := hbytes rfl
  rw [u32_of_lt hsum] at hse
  have hlen : (pre ++ [c]).length * bytesPerCluster m =
      pre.length * bytesPerCluster m + bytesPerCluster m := by
    rw [List.length_append, List.length_singleton, Nat.succ_mul]
  refine ⟨⟨hext₆.reliable hw.reliable, hexact hw₅, hse.copiesEqual g hw₅.copies⟩,
    .done rfl hsn (hf.toEntry hname) (by simpa using hattr) hsum
      (extended_append g hs.tidy hf.dir hf.live hch' hoff hsize hm₄.disk hvol₄ hgrown hmore)
      ?_ (fun i hi => ?_) hse⟩
  · rw [List.length_append, Nat.add_mul]
    omega
  · by_cases hik : i < k
    · -- in what was free of the tail cluster
      have hj : off + i < bytesPerCluster m := by omega
      have hq : (off + i) / 512 < m.bpb.sectorsPerCluster := by
        have hb : bytesPerCluster m = m.bpb.sectorsPerCluster * 512 := rfl
        omega
      have hused : fatValue m s₄.disk c ≠ 0 := by
        have := hch₄.link c (by simp)
        omega
      rw [hsize, Nat.add_assoc, chainByte_append_left g _ _ _ (by omega),
        chainByte_append_right g, chainByte_singleton _ _ hj]
      unfold clusterByte
      rw [hgrown.bytes c h2 hused _ hq, hm₄.disk]
      have hpatch := clusterByte_patch s.disk c off (off + k)
        (fun p => (buffer.getD fun _ => 0) (0 + (p - off))) hj
      rw [if_pos (by omega)] at hpatch
      exact hpatch.trans (congrArg (buffer.getD fun _ => 0) (by omega))
    · obtain ⟨i', rfl⟩ : ∃ i', i = k + i' := ⟨i - k, by omega⟩
      have hat : f.entry.size + (k + i') = (pre ++ [c]).length * bytesPerCluster m + i' := by omega
      rw [hat, chainByte_append_right g, hrest i' (by omega)]
      exact congrArg (buffer.getD fun _ => 0) (by omega)

end MinervaOS.Fat32
