import MinervaOS.Fat32.Clusters

/-!
# Scanning the root directory

The three nested loops over the root directory look at its slots in the order of `slots`, so a scan
is a search of one list (`seek`). What it finds is the first slot its loop body stops at; on a
directory that is zero behind its end, nothing found means there is nothing to find.
-/

namespace MinervaOS.Fat32

open Prog

variable {m : Mount} {R : List Nat}

/-- A scan of slots, in order. -/
def seek (look : Dirent → Scan Unit) (d : Disk) : List (Nat × Nat) → Scan (Nat × Nat)
  | [] => .next
  | p :: ps =>
    match look (slotEntry d p) with
    | .stop => .stop
    | .hit _ => .hit p
    | .next => seek look d ps

variable {look : Dirent → Scan Unit} {d : Disk}

theorem seek_append (xs ys : List (Nat × Nat)) : seek look d (xs ++ ys) =
    match seek look d xs with
    | .stop => .stop
    | .hit p => .hit p
    | .next => seek look d ys := by
  induction xs with
  | nil => rfl
  | cons p ps ih =>
    simp only [List.cons_append, seek]
    cases look (slotEntry d p) with
    | stop => rfl
    | hit _ => rfl
    | next => exact ih

theorem seek_hit {ps : List (Nat × Nat)} {p : Nat × Nat} (h : seek look d ps = .hit p) :
    ∃ n : Nat, ps[n]? = some p ∧ look (slotEntry d p) = .hit () ∧
      ∀ (i : Nat) (q : Nat × Nat), i < n → ps[i]? = some q → look (slotEntry d q) = .next := by
  induction ps with
  | nil => simp [seek] at h
  | cons q ps ih =>
    rw [seek] at h
    cases hq : look (slotEntry d q) with
    | stop => simp [hq] at h
    | hit _ =>
      obtain rfl : q = p := by simpa [hq] using h
      exact ⟨0, rfl, hq, fun i _ hi => absurd hi (Nat.not_lt_zero i)⟩
    | next =>
      obtain ⟨n, hn, hl, hb⟩ := ih (by simpa [hq] using h)
      refine ⟨n + 1, hn, hl, fun i x hi hx => ?_⟩
      cases i with
      | zero =>
        obtain rfl : q = x := by simpa using hx
        exact hq
      | succ i => exact hb i x (by omega) hx

/-- What a scan without a hit has seen: every slot up to its end, or up to one that stops it. -/
theorem seek_no_hit {ps : List (Nat × Nat)} (h : ∀ p, seek look d ps ≠ .hit p) (i : Nat)
    (q : Nat × Nat) (hi : ps[i]? = some q) : look (slotEntry d q) = .next ∨
      ∃ (j : Nat) (x : Nat × Nat), j ≤ i ∧ ps[j]? = some x ∧ look (slotEntry d x) = .stop := by
  induction ps generalizing i with
  | nil => simp at hi
  | cons p ps ih =>
    simp only [seek] at h
    cases hp : look (slotEntry d p) with
    | stop => exact .inr ⟨0, p, Nat.zero_le i, rfl, hp⟩
    | hit _ => simp [hp] at h
    | next =>
      simp only [hp] at h
      cases i with
      | zero =>
        obtain rfl : p = q := by simpa using hi
        exact .inl hp
      | succ i =>
        rcases ih h i hi with hn | ⟨j, x, hj, hx, hs⟩
        · exact .inl hn
        · exact .inr ⟨j + 1, x, by omega, hx, hs⟩

theorem seek_sector (sec : Sector) {lba : Nat} (hsec : sec = d lba) : ∀ is : List Nat,
    seek look d (is.map fun i => (lba, i)) =
      match scanSlots look sec is with
      | .stop => .stop
      | .hit i => .hit (lba, i)
      | .next => .next
  | [] => rfl
  | i :: is => by
    simp only [List.map_cons, seek, scanSlots, slotEntry, hsec]
    cases hl : look (dirent (d lba) i) with
    | stop => rfl
    | hit _ => rfl
    | next => exact hsec ▸ seek_sector sec hsec is

/-- The slots of one cluster from sector `k` on, `n` sectors left. -/
def clusterSlots (m : Mount) (c n k : Nat) : List (Nat × Nat) :=
  (List.range' k n).flatMap fun s => (List.range 16).map fun i => (clusterSector m c s, i)

theorem slots_cons (c : Nat) : slots m (c :: R) =
    clusterSlots m c m.bpb.sectorsPerCluster 0 ++ slots m R := by
  simp only [slots, clusterSlots, List.flatMap_cons, List.range_eq_range']

variable (g : Geometry m)

include g

theorem scanSectors_spec {c : Nat} (h2 : 2 ≤ c) (hc : c < maxCluster m) :
    ∀ (n k : Nat) (s : Fs), k + n = m.bpb.sectorsPerCluster →
      Total (scanSectors m look c n k) s fun r s' => Reads s s' ∧
        ((r = seek look s.disk (clusterSlots m c n k) ∧
            ∀ p, r = .hit p → s'.sector = s.disk p.1) ∨
          (r = .stop ∧ Refused s s')) := by
  intro n
  induction n with
  | zero =>
    intro k s _
    simp only [scanSectors, total_pure]
    exact ⟨.refl s, .inl ⟨rfl, by simp⟩⟩
  | succ n ih =>
    intro k s hn
    have hk : k < m.bpb.sectorsPerCluster := by omega
    have hl := g.clusterSector_lt h2 hc hk
    simp only [scanSectors, g.clusterToLba_add h2 hc hk, total_bind]
    refine (ataReadSector_spec hl s).mono fun ok s₁ hread => ?_
    rcases hread with ⟨hr, hsec, hno⟩
    cases ok with
    | false =>
      simp only [Bool.not_false, if_true, total_pure]
      exact ⟨hr, .inr ⟨by trivial, hno rfl⟩⟩
    | true =>
      simp only [Bool.not_true, Bool.false_eq_true, if_false, total_bind, total_get]
      have hseek := @seek_sector look s.disk s₁.sector _ (hsec rfl) (List.range 16)
      have hcons : seek look s.disk (clusterSlots m c (n + 1) k) =
          match scanSlots look s₁.sector (List.range 16) with
          | .stop => .stop
          | .hit i => .hit (clusterSector m c k, i)
          | .next => seek look s.disk (clusterSlots m c n (k + 1)) := by
        rw [clusterSlots, List.range'_succ, List.flatMap_cons, seek_append, hseek]
        cases scanSlots look s₁.sector (List.range 16) <;> rfl
      rw [hcons]
      cases scanSlots look s₁.sector (List.range 16) with
      | stop =>
        simp only [total_pure]
        exact ⟨hr, .inl ⟨by trivial, by simp⟩⟩
      | hit i =>
        simp only [total_pure]
        refine ⟨hr, .inl ⟨by trivial, fun p hp => ?_⟩⟩
        obtain rfl : (clusterSector m c k, i) = p := by simpa using hp
        exact hsec rfl
      | next =>
        refine (ih (k + 1) s₁ (by omega)).mono ?_
        rintro r s₂ ⟨hr₂, ⟨rfl, hs⟩ | ⟨rfl, hno₂⟩⟩
        · rw [hr.disk] at hs ⊢
          exact ⟨hr.reads hr₂, .inl ⟨rfl, hs⟩⟩
        · exact ⟨hr.reads hr₂, .inr ⟨rfl, hno₂.of_extends hr.ext⟩⟩

theorem scanRoot_walk : ∀ (l : List Nat) (steps c : Nat) (s : Fs), l.length < steps →
    Walk (fatValue m s.disk) ChainEnd c l → 2 ≤ c → (∀ x ∈ l, x < maxCluster m) →
    (∀ x ∈ l, 2 ≤ fatValue m s.disk x) →
    Total (scanRoot m look steps c) s fun r s' => Reads s s' ∧
      ((∃ p, r = some p ∧ seek look s.disk (slots m l) = .hit p ∧ s'.sector = s.disk p.1) ∨
        (r = none ∧ (Refused s s' ∨ ∀ p, seek look s.disk (slots m l) ≠ .hit p))) := by
  intro l
  induction l with
  | nil =>
    intro steps c s hlen hw h2 _ _
    have hstop : c ≥ fat32Eoc := by
      cases hw with | nil h => unfold ChainEnd at h; omega
    obtain ⟨steps, rfl⟩ : ∃ k, steps = k + 1 := ⟨steps - 1, by simp at hlen; omega⟩
    simp only [scanRoot, hstop, if_true, total_pure]
    exact ⟨.refl s, .inr ⟨by trivial, .inr (by simp [slots, seek])⟩⟩
  | cons x l ih =>
    intro steps c s hlen hw h2 hlt hlink
    obtain ⟨rfl, ht⟩ : c = x ∧ Walk (fatValue m s.disk) ChainEnd (fatValue m s.disk c) l := by
      cases hw with | cons _ ht => exact ⟨rfl, ht⟩
    have hc : c < maxCluster m := hlt c List.mem_cons_self
    have hcond : ¬c ≥ fat32Eoc := by
      have := g.maxCluster_lt
      omega
    obtain ⟨steps, rfl⟩ : ∃ k, steps = k + 1 := ⟨steps - 1, by simp at hlen; omega⟩
    simp only [scanRoot, hcond, if_false, total_bind]
    refine (scanSectors_spec g h2 hc m.bpb.sectorsPerCluster 0 s (by omega)).mono ?_
    rintro r s₁ ⟨hr, ⟨hseek, hs⟩ | ⟨rfl, hno⟩⟩
    · have hcons := @seek_append look s.disk
        (clusterSlots m c m.bpb.sectorsPerCluster 0) (slots m l)
      rw [← slots_cons, ← hseek] at hcons
      cases r with
      | stop =>
        simp only [total_pure, hcons]
        exact ⟨hr, .inr ⟨by trivial, .inr (by simp)⟩⟩
      | hit p =>
        simp only [total_pure, hcons]
        exact ⟨hr, .inl ⟨p, by trivial, rfl, hs p rfl⟩⟩
      | next =>
        simp only [total_bind, hcons]
        refine (nextCluster_spec g hc s₁).mono ?_
        rintro r s₂ ⟨hr₂, rfl | ⟨rfl, hno⟩⟩
        · have h₂ : Reads s s₂ := hr.reads hr₂
          have hd : fatValue m s₂.disk = fatValue m s.disk := by rw [h₂.disk]
          rw [hr.disk]
          refine (ih steps _ s₂ (by simpa using hlen) (hd ▸ ht)
            (hlink c List.mem_cons_self) (fun x hx => hlt x (List.mem_cons_of_mem _ hx))
            (fun x hx => hd ▸ hlink x (List.mem_cons_of_mem _ hx))).mono ?_
          rintro r s₃ ⟨hr₃, h⟩
          rw [h₂.disk] at h
          refine ⟨h₂.reads hr₃, ?_⟩
          rcases h with h | ⟨hn, h⟩
          · exact .inl h
          · exact .inr ⟨hn, h.imp (·.of_extends h₂.ext) id⟩
        · -- a refused look at the FAT reads as the end of the directory
          obtain ⟨steps, rfl⟩ : ∃ k, steps = k + 1 := ⟨steps - 1, by simp at hlen; omega⟩
          simp only [scanRoot, ge_iff_le, Nat.le_refl, if_true, total_pure]
          exact ⟨hr.reads hr₂, .inr ⟨by trivial, .inl (hno.of_extends hr.ext)⟩⟩
    · simp only [total_pure]
      exact ⟨hr, .inr ⟨by trivial, .inl hno⟩⟩

theorem scanRoot_spec (s : Fs)
    (hR : Chain (fatValue m s.disk) (maxCluster m) m.bpb.rootCluster R) (hne : R ≠ []) :
    Total (scanRoot m look rootSteps m.bpb.rootCluster) s fun r s' => Reads s s' ∧
      ((∃ p, r = some p ∧ seek look s.disk (slots m R) = .hit p ∧ s'.sector = s.disk p.1) ∨
        (r = none ∧ (Refused s s' ∨ ∀ p, seek look s.disk (slots m R) ≠ .hit p))) := by
  have hlen : R.length < rootSteps := by
    have h1 := hR.length_le
    have h2 := g.maxCluster_lt
    unfold rootSteps
    unfold fat32Eoc at h2
    omega
  have h2 : 2 ≤ m.bpb.rootCluster := by
    cases hR.walk with
    | nil _ => exact absurd rfl hne
    | cons h _ => unfold ChainEnd at h; omega
  exact scanRoot_walk g R _ _ s hlen hR.walk h2 hR.lt hR.link

omit g

/-! ## Looking up a name -/

theorem lookFor_hit {target : List UInt8} {e : Dirent} (h : lookFor target e = .hit ()) :
    Live e ∧ e.name = target := by
  unfold lookFor at h
  split at h
  · cases h
  · split at h
    · cases h
    · rename_i hl
      split at h
      · rename_i hn
        exact ⟨by simpa [Live] using hl, by simpa using hn⟩
      · cases h

theorem lookFor_next {target : List UInt8} {e : Dirent} (h : lookFor target e = .next) :
    e 0 ≠ 0 ∧ ¬(Live e ∧ e.name = target) := by
  unfold lookFor at h
  split at h
  · cases h
  · rename_i h0
    refine ⟨by simpa using h0, fun ⟨hl, hn⟩ => ?_⟩
    simp [show validFileEntry e = true from hl, hn] at h

theorem lookFor_stop {target : List UInt8} {e : Dirent} (h : lookFor target e = .stop) :
    e 0 = 0 := by
  unfold lookFor at h
  split at h
  · rename_i h0
    simpa using h0
  · split at h
    · cases h
    · split at h <;> cases h

/-- `f` is slot `n` of the root directory. -/
structure AtSlot (m : Mount) (R : List Nat) (d : Disk) (f : Found) (n : Nat) : Prop where
  slot : (slots m R)[n]? = some (f.lba, f.index)
  entry : f.entry = slotEntry d (f.lba, f.index)
  live : Live f.entry

theorem AtSlot.dir {f : Found} {n : Nat} (h : AtSlot m R d f n) :
    (vol m R d).dir[n]? = some f.entry := by
  simp only [vol, List.getElem?_map, h.slot, Option.map_some, h.entry]

theorem vol_dir_getElem? {n : Nat} {e : Dirent} (h : (vol m R d).dir[n]? = some e) :
    ∃ p, (slots m R)[n]? = some p ∧ slotEntry d p = e := by
  simpa [vol] using h

/-- No live entry has the name. -/
def NoEntry (m : Mount) (R : List Nat) (d : Disk) (target : List UInt8) : Prop :=
  ∀ (n : Nat) (e : Dirent), (vol m R d).dir[n]? = some e → Live e → e.name ≠ target

include g

theorem findRootEntryAt_spec (name : List UInt8) (s : Fs)
    (ht : (vol m R s.disk).Tidy (maxCluster m) m.bpb.rootCluster R) :
    Total (findRootEntryAt m name) s fun r s' => Reads s s' ∧
      ((∃ f n, r = some f ∧ AtSlot m R s.disk f n ∧ f.entry.name = makeShortName name) ∨
        (r = none ∧ (Refused s s' ∨ NoEntry m R s.disk (makeShortName name)))) := by
  simp only [findRootEntryAt, total_bind]
  refine (scanRoot_spec g s ht.root ht.root_ne).mono ?_
  rintro r s₁ ⟨hr, ⟨p, rfl, hseek, hsec⟩ | ⟨rfl, h⟩⟩
  · simp only [total_bind, total_get, total_pure]
    obtain ⟨n, hn, hhit, -⟩ := seek_hit hseek
    have he : dirent s₁.sector p.2 = slotEntry s.disk p := by rw [hsec]; rfl
    obtain ⟨hl, hname⟩ := lookFor_hit hhit
    rw [← he] at hl hname
    exact ⟨hr, .inl ⟨_, n, rfl, ⟨hn, he, hl⟩, hname⟩⟩
  · simp only [total_pure]
    refine ⟨hr, .inr ⟨by trivial, h.imp id fun h n e hn hl hname => ?_⟩⟩
    obtain ⟨p, hp, rfl⟩ := vol_dir_getElem? hn
    rcases seek_no_hit h n p hp with hnext | ⟨j, q, hj, hq, hstop⟩
    · exact (lookFor_next hnext).2 ⟨hl, hname⟩
    · have hq' : (vol m R s.disk).dir[j]? = some (slotEntry s.disk q) := by simp [vol, hq]
      exact ht.not_live_of_ended hj hq' hn (lookFor_stop hstop) hl

theorem findRootEntry_spec (name : List UInt8) (s : Fs)
    (ht : (vol m R s.disk).Tidy (maxCluster m) m.bpb.rootCluster R) :
    Total (findRootEntry m name) s fun r s' => Reads s s' ∧
      ((∃ f n, r = some f.entry ∧ AtSlot m R s.disk f n ∧ f.entry.name = makeShortName name) ∨
        (r = none ∧ (Refused s s' ∨ NoEntry m R s.disk (makeShortName name)))) := by
  simp only [findRootEntry, total_bind]
  refine (findRootEntryAt_spec g name s ht).mono ?_
  rintro r s₁ ⟨hr, ⟨f, n, rfl, hf⟩ | ⟨rfl, h⟩⟩
  · simp only [total_pure]
    exact ⟨hr, .inl ⟨f, n, rfl, hf⟩⟩
  · simp only [total_pure]
    exact ⟨hr, .inr ⟨by trivial, h⟩⟩

end MinervaOS.Fat32
