import Mathlib.Data.List.Basic
import MinervaOS.Fat32.Updates

/-!
# What a user sees of a volume

The listing of the root directory: for each live entry its name, its size, and the bytes of its
chain up to its size. On a reliable disk `fs_list_root` calls back with the names and sizes of the
listing, in order.
-/

namespace MinervaOS.Fat32

open Prog

/-- The clusters met from `c` on, at most `fuel` of them. -/
def follow (fat : Nat → Nat) : Nat → Nat → List Nat
  | 0, _ => []
  | fuel + 1, c => if ChainEnd c then [] else c :: follow fat fuel (fat c)

def sectorBytes (sec : Sector) : List UInt8 := (List.range sectorSize).map sec

variable (m : Mount) in
def clusterBytes (d : Disk) (c : Nat) : List UInt8 :=
  (List.range m.bpb.sectorsPerCluster).flatMap fun s => sectorBytes (d (clusterSector m c s))

variable (m : Mount) in
/-- The bytes of a file: its chain's, up to its size. -/
def contents (d : Disk) (e : Dirent) : List UInt8 :=
  ((follow (fatValue m d) (maxCluster m) (firstCluster e)).flatMap (clusterBytes m d)).take e.size

structure FileView where
  name : List UInt8
  size : Nat
  bytes : List UInt8
  deriving DecidableEq

variable (m : Mount) in
def fileView (d : Disk) (e : Dirent) : FileView :=
  ⟨shortNameToString e.name, e.size, contents m d e⟩

variable (m : Mount) in
def listing (R : List Nat) (d : Disk) : List FileView :=
  ((vol m R d).dir.filter fun e => decide (Live e)).map (fileView m d)

variable {m : Mount} {R : List Nat} {d d' : Disk} {s : Fs}

theorem follow_walk {fat : Nat → Nat} : ∀ {l : List Nat} {c fuel : Nat}, Walk fat ChainEnd c l →
    l.length ≤ fuel → follow fat fuel c = l
  | [], c, 0, _, _ => rfl
  | [], c, fuel + 1, h, _ => by
    have hs : ChainEnd c := by cases h with | nil hs => exact hs
    rw [follow, if_pos hs]
  | x :: l, c, 0, _, hlen => by simp at hlen
  | x :: l, c, fuel + 1, h, hlen => by
    cases h with
    | cons hn ht => rw [follow, if_neg hn, follow_walk ht (by simpa using hlen)]

theorem follow_chain {fat : Nat → Nat} {first hi : Nat} {l : List Nat} (h : Chain fat hi first l) :
    follow fat hi first = l :=
  follow_walk h.walk h.length_le

theorem contents_chain {e : Dirent} {l : List Nat}
    (h : Chain (fatValue m d) (maxCluster m) (firstCluster e) l) :
    contents m d e = (l.flatMap (clusterBytes m d)).take e.size := by
  rw [contents, follow_chain h]

theorem length_clusterBytes (d : Disk) (c : Nat) :
    (clusterBytes m d c).length = bytesPerCluster m := by
  simp [clusterBytes, sectorBytes, bytesPerCluster]

theorem clusterBytes_congr {c : Nat}
    (h : ∀ s < m.bpb.sectorsPerCluster, d' (clusterSector m c s) = d (clusterSector m c s)) :
    clusterBytes m d' c = clusterBytes m d c := by
  unfold clusterBytes
  refine List.flatMap_congr fun k hk => ?_
  exact congrArg sectorBytes (h k (List.mem_range.1 hk))

/-- A file keeps its bytes if its chain and the sectors of its clusters stay. -/
theorem contents_congr {e : Dirent} {l : List Nat}
    (h : Chain (fatValue m d) (maxCluster m) (firstCluster e) l)
    (h' : Chain (fatValue m d') (maxCluster m) (firstCluster e) l)
    (hb : ∀ c ∈ l, ∀ s < m.bpb.sectorsPerCluster,
      d' (clusterSector m c s) = d (clusterSector m c s)) : contents m d' e = contents m d e := by
  have hbytes : l.flatMap (clusterBytes m d') = l.flatMap (clusterBytes m d) :=
    List.flatMap_congr fun c hc => clusterBytes_congr (hb c hc)
  rw [contents_chain h, contents_chain h', hbytes]

theorem listing_congr (hdir : (vol m R d').dir = (vol m R d).dir)
    (h : ∀ e ∈ (vol m R d).dir, Live e → contents m d' e = contents m d e) :
    listing m R d' = listing m R d := by
  unfold listing
  rw [hdir]
  refine List.map_congr_left fun e he => ?_
  obtain ⟨hmem, hl⟩ := List.mem_filter.1 he
  unfold fileView
  rw [h e hmem (by simpa using hl)]

theorem dir_split {dir : List Dirent} {n : Nat} {e : Dirent} (h : dir[n]? = some e) :
    dir = dir.take n ++ e :: dir.drop (n + 1) ∧
      ∀ e', dir.set n e' = dir.take n ++ e' :: dir.drop (n + 1) := by
  obtain ⟨hlt, rfl⟩ := List.getElem?_eq_some_iff.1 h
  refine ⟨?_, fun e' => List.set_eq_take_append_cons_drop.trans (if_pos hlt)⟩
  rw [List.getElem_cons_drop, List.take_append_drop]

/-- The listing before and after a change of one slot. -/
theorem listing_slot {n : Nat} {e e' : Dirent} (he : (vol m R d).dir[n]? = some e)
    (hdir : (vol m R d').dir = (vol m R d).dir.set n e')
    (hothers : ∀ (i : Nat) (x : Dirent), i ≠ n → (vol m R d).dir[i]? = some x → Live x →
      contents m d' x = contents m d x) : ∃ before after,
      listing m R d = before ++ ((if Live e then [fileView m d e] else []) ++ after) ∧
      listing m R d' = before ++ ((if Live e' then [fileView m d' e'] else []) ++ after) := by
  have hpart : ∀ (es : List Dirent), (∀ x ∈ es, Live x → contents m d' x = contents m d x) →
      (es.filter fun x => decide (Live x)).map (fileView m d') =
        (es.filter fun x => decide (Live x)).map (fileView m d) := by
    intro es hes
    refine List.map_congr_left fun x hx => ?_
    obtain ⟨hmem, hlx⟩ := List.mem_filter.1 hx
    unfold fileView
    rw [hes x hmem (by simpa using hlx)]
  have htake : ∀ x ∈ (vol m R d).dir.take n, Live x → contents m d' x = contents m d x := by
    intro x hx hlx
    obtain ⟨i, hi⟩ := List.getElem?_of_mem hx
    rw [List.getElem?_take] at hi
    split at hi
    · exact hothers i x (by omega) hi hlx
    · cases hi
  have hdrop : ∀ x ∈ (vol m R d).dir.drop (n + 1), Live x → contents m d' x = contents m d x := by
    intro x hx hlx
    obtain ⟨i, hi⟩ := List.getElem?_of_mem hx
    rw [List.getElem?_drop] at hi
    exact hothers (n + 1 + i) x (by omega) hi hlx
  have hone : ∀ (d : Disk) (x : Dirent) (es : List Dirent),
      ((x :: es).filter fun x => decide (Live x)).map (fileView m d) =
        (if Live x then [fileView m d x] else []) ++
          (es.filter fun x => decide (Live x)).map (fileView m d) := by
    intro d x es
    by_cases hl : Live x <;> simp [hl]
  refine ⟨(((vol m R d).dir.take n).filter fun x => decide (Live x)).map (fileView m d),
    (((vol m R d).dir.drop (n + 1)).filter fun x => decide (Live x)).map (fileView m d), ?_, ?_⟩
  · rw [← hone, ← List.map_append, ← List.filter_append, ← (dir_split he).1, listing]
  · rw [← hpart _ htake, ← hpart _ hdrop, ← hone, ← List.map_append, ← List.filter_append,
      ← (dir_split he).2, ← hdir, listing]

/-! ## `fs_list_root` -/

/-- The callbacks a list of entries makes, and whether it ended the directory. -/
def listed : List Dirent → List (List UInt8 × Nat) × Bool
  | [] => ([], false)
  | e :: es =>
    if e 0 == 0x00 then ([], true)
    else if !validFileEntry e then listed es
    else ((shortNameToString e.name, e.size) :: (listed es).1, (listed es).2)

theorem listed_append : ∀ xs ys : List Dirent, listed (xs ++ ys) =
    if (listed xs).2 then listed xs else ((listed xs).1 ++ (listed ys).1, (listed ys).2)
  | [], ys => by simp [listed]
  | e :: xs, ys => by
    simp only [List.cons_append, listed, listed_append xs ys]
    split
    · rfl
    · split
      · rfl
      · cases hend : (listed xs).2 <;> simp [hend]

theorem listSlots_eq (sec : Sector) : ∀ is : List Nat,
    listSlots sec is = listed (is.map (dirent sec))
  | [] => rfl
  | i :: is => by
    simp only [listSlots, List.map_cons, listed, listSlots_eq sec is]

/-- On a directory that is zero behind its end the callbacks are the live entries'. -/
theorem listed_tidy : ∀ es : List Dirent,
    (∀ (i j : Nat) (e e' : Dirent), i < j → es[i]? = some e → es[j]? = some e' → e 0 = 0 →
      ∀ k, e' k = 0) →
    (listed es).1 = (es.filter fun e => decide (Live e)).map fun e =>
      (shortNameToString e.name, e.size)
  | [], _ => rfl
  | e :: es, h => by
    have ih := listed_tidy es fun i j x y hij hx hy =>
      h (i + 1) (j + 1) x y (by omega) hx hy
    rw [listed]
    split
    · rename_i h0
      have h0' : e 0 = 0 := by simpa using h0
      have hdead : ∀ x ∈ e :: es, ¬Live x := by
        intro x hx
        obtain ⟨j, hj⟩ := List.getElem?_of_mem hx
        have hx0 : x 0 = 0 := by
          cases j with
          | zero =>
            obtain rfl : e = x := by simpa using hj
            exact h0'
          | succ j => exact h 0 (j + 1) e x (by omega) rfl hj h0' 0
        simp [Live, validFileEntry, hx0]
      rw [List.filter_eq_nil_iff.2 fun x hx => by simpa using hdead x hx]
      rfl
    · split
      · rename_i hv
        have hdead : ¬Live e := by simpa [Live] using hv
        simp [hdead, ih]
      · rename_i hv
        have hlive : Live e := by simpa [Live] using hv
        simp [hlive, ih]

variable (g : Geometry m)

include g

theorem listSectors_spec {c : Nat} (h2 : 2 ≤ c) (hc : c < maxCluster m) :
    ∀ (n k : Nat) (s : Fs), k + n = m.bpb.sectorsPerCluster →
      Total (listSectors m c n k) s fun r s' => Reads s s' ∧
        (r = some (listed ((clusterSlots m c n k).map (slotEntry s.disk))) ∨
          (r = none ∧ Refused s s')) := by
  intro n
  induction n with
  | zero =>
    intro k s _
    simp only [listSectors, total_pure]
    exact ⟨.refl s, .inl rfl⟩
  | succ n ih =>
    intro k s hn
    have hk : k < m.bpb.sectorsPerCluster := by omega
    have hl := g.clusterSector_lt h2 hc hk
    simp only [listSectors, g.clusterToLba_add h2 hc hk, total_bind]
    refine (ataReadSector_spec hl s).mono fun ok s₁ hread => ?_
    rcases hread with ⟨hr, hsec, hno⟩
    cases ok with
    | false =>
      simp only [Bool.not_false, if_true, total_pure]
      exact ⟨hr, .inr ⟨by trivial, hno rfl⟩⟩
    | true =>
      simp only [Bool.not_true, Bool.false_eq_true, if_false, total_bind, total_get]
      have hcons : listed ((clusterSlots m c (n + 1) k).map (slotEntry s.disk)) =
          if (listSlots s₁.sector (List.range 16)).2 then listSlots s₁.sector (List.range 16)
          else ((listSlots s₁.sector (List.range 16)).1 ++
              (listed ((clusterSlots m c n (k + 1)).map (slotEntry s.disk))).1,
            (listed ((clusterSlots m c n (k + 1)).map (slotEntry s.disk))).2) := by
        rw [listSlots_eq, hsec rfl, clusterSlots, List.range'_succ, List.flatMap_cons,
          List.map_append, listed_append, List.map_map]
        rfl
      rw [hcons]
      refine (total_ite ..).2 ⟨fun hend => ?_, fun hend => (total_bind ..).2 ?_⟩
      · rw [if_pos hend]
        refine (total_pure ..).2 ⟨hr, .inl ?_⟩
        rw [← hend]
      · rw [if_neg hend]
        refine (ih (k + 1) s₁ (by omega)).mono ?_
        rintro r s₂ ⟨hr₂, rfl | ⟨rfl, hno₂⟩⟩
        · rw [hr.disk]
          exact (total_pure ..).2 ⟨hr.reads hr₂, .inl rfl⟩
        · exact (total_pure ..).2 ⟨hr.reads hr₂, .inr ⟨rfl, hno₂.of_extends hr.ext⟩⟩

theorem listRoot_walk : ∀ (l : List Nat) (steps c : Nat) (s : Fs), l.length < steps →
    Walk (fatValue m s.disk) ChainEnd c l → 2 ≤ c → (∀ x ∈ l, x < maxCluster m) →
    (∀ x ∈ l, 2 ≤ fatValue m s.disk x) → s.faults = [] →
    Total (listRoot m steps c) s fun r s' => Reads s s' ∧
      r = some (listed ((slots m l).map (slotEntry s.disk))).1
  | [], steps, c, s, hlen, hw, h2, _, _, _ => by
    have hstop : c ≥ fat32Eoc := by
      cases hw with | nil h => unfold ChainEnd at h; omega
    obtain ⟨steps, rfl⟩ : ∃ k, steps = k + 1 := ⟨steps - 1, by simp at hlen; omega⟩
    simp only [listRoot, hstop, if_true, total_pure]
    exact ⟨.refl s, rfl⟩
  | x :: l, steps, c, s, hlen, hw, h2, hlt, hlink, hrel => by
    obtain ⟨rfl, ht⟩ : c = x ∧ Walk (fatValue m s.disk) ChainEnd (fatValue m s.disk c) l := by
      cases hw with | cons _ ht => exact ⟨rfl, ht⟩
    have hc : c < maxCluster m := hlt c List.mem_cons_self
    have hcond : ¬c ≥ fat32Eoc := by
      have := g.maxCluster_lt
      omega
    obtain ⟨steps, rfl⟩ : ∃ k, steps = k + 1 := ⟨steps - 1, by simp at hlen; omega⟩
    rw [slots_cons, List.map_append, listed_append]
    simp only [listRoot, hcond, if_false, total_bind]
    refine (listSectors_spec g h2 hc m.bpb.sectorsPerCluster 0 s (by omega)).mono ?_
    rintro r s₁ ⟨hr, rfl | ⟨rfl, hno⟩⟩
    swap
    · exact absurd hrel hno.not_reliable
    refine (total_ite ..).2 ⟨fun hend => (total_pure ..).2 ⟨hr, by rw [if_pos hend]⟩,
      fun hend => (total_bind ..).2 ?_⟩
    rw [if_neg hend]
    refine (nextCluster_spec g hc s₁).mono ?_
    rintro r s₂ ⟨hr₂, rfl | ⟨rfl, hno⟩⟩
    swap
    · exact absurd (hr.ext.reliable hrel) hno.not_reliable
    have h₂ : Reads s s₂ := hr.reads hr₂
    have hd : fatValue m s₂.disk = fatValue m s.disk := by rw [h₂.disk]
    rw [hr.disk, total_bind]
    refine (listRoot_walk l steps _ s₂ (by simpa using hlen) (hd ▸ ht)
      (hlink c List.mem_cons_self) (fun x hx => hlt x (List.mem_cons_of_mem _ hx))
      (fun x hx => hd ▸ hlink x (List.mem_cons_of_mem _ hx)) (h₂.ext.reliable hrel)).mono ?_
    rintro r s₃ ⟨hr₃, rfl⟩
    rw [h₂.disk]
    exact (total_pure ..).2 ⟨h₂.reads hr₃, rfl⟩

/-- On a reliable disk `fs_list_root` calls back with the listing. -/
theorem fsListRoot_spec (ht : (vol m R s.disk).Tidy (maxCluster m) m.bpb.rootCluster R)
    (hrel : s.faults = []) :
    Total (fsListRoot m) s fun r s' => Reads s s' ∧
      r = some ((listing m R s.disk).map fun v => (v.name, v.size)) := by
  have hlen : R.length < rootSteps := by
    have h1 := ht.root.length_le
    have h2 := g.maxCluster_lt
    unfold rootSteps
    unfold fat32Eoc at h2
    omega
  have h2 : 2 ≤ m.bpb.rootCluster := by
    cases ht.root.walk with
    | nil _ => exact absurd rfl ht.root_ne
    | cons h _ => unfold ChainEnd at h; omega
  simp only [fsListRoot, g.mounted, Bool.not_true, Bool.false_eq_true, if_false]
  refine (listRoot_walk g R _ _ s hlen ht.root.walk h2 ht.root.lt ht.root.link hrel).mono ?_
  rintro r s' ⟨hr, rfl⟩
  refine ⟨hr, ?_⟩
  have hdir : (slots m R).map (slotEntry s.disk) = (vol m R s.disk).dir := rfl
  rw [hdir, listed_tidy _ ht.ended]
  simp [listing, fileView, Function.comp_def]

end MinervaOS.Fat32
