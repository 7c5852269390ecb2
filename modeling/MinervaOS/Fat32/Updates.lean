import MinervaOS.Fat32.Lookup

/-!
# One entry and its clusters

Every call edits at most one slot of the directory, and the FAT values it writes are of clusters
that were free or in the chain of that slot. That is all it takes for the other chains to stay, so
the invariants below ask no more of a change (`Tidy.setSlot`, `Exact.setSlot`).
-/

namespace MinervaOS.Fat32

namespace Vol

variable {hi root : Nat} {R : List Nat} {V V' : Vol} {n : Nat}

/-- Cluster `c` is free or in the chain of slot `n`. -/
def Mine (hi : Nat) (V : Vol) (n c : Nat) : Prop :=
  V.fat c = 0 ∨ ∃ l, V.Owns hi n l ∧ c ∈ l

/-- `V'` is `V` with `e'` in slot `n` and some clusters of that slot changed. -/
structure SetSlot (hi : Nat) (V V' : Vol) (n : Nat) (e' : Dirent) : Prop where
  dir : ∀ i : Nat, i ≠ n → V'.dir[i]? = V.dir[i]?
  slot : V'.dir[n]? = some e'
  fat : ∀ c, ¬V.Mine hi n c → V'.fat c = V.fat c

theorem Tidy.not_mine_root (hV : V.Tidy hi root R) {c : Nat} (hc : c ∈ R) : ¬V.Mine hi n c := by
  rintro (h0 | ⟨l, hl, hcl⟩)
  · exact hV.root_fat_ne_zero hc h0
  · exact hV.off_root n l hl hcl hc

theorem Tidy.not_mine_other (hV : V.Tidy hi root R) {i c : Nat} {l : List Nat} (hi' : i ≠ n)
    (hl : V.Owns hi i l) (hc : c ∈ l) : ¬V.Mine hi n c := by
  rintro (h0 | ⟨l', hl', hc'⟩)
  · exact hl.fat_ne_zero hc h0
  · exact hV.apart i n l l' hi' hl hl' hc hc'

theorem SetSlot.change (hV : V.Tidy hi root R) {e' : Dirent} (h : V.SetSlot hi V' n e') :
    Change hi R V V' n (V.Mine hi n) where
  dir := h.dir
  fat := h.fat
  off_root _ := hV.not_mine_root
  off_others _ _ hi' hl _ := hV.not_mine_other hi' hl

theorem Tidy.setSlot (hV : V.Tidy hi root R) {e' : Dirent} (h : V.SetSlot hi V' n e')
    (hbefore : ∀ (i : Nat) (e : Dirent), i < n → V.dir[i]? = some e → e 0 ≠ 0) (h0 : e' 0 ≠ 0)
    (hchain : Live e' → ∃ l, Chain V'.fat hi (firstCluster e') l ∧ ∀ c ∈ l, V.Mine hi n c) :
    V'.Tidy hi root R := by
  have hslot : ∀ e, V'.dir[n]? = some e → e = e' := fun e he => by simpa [h.slot] using he.symm
  refine hV.change (h.change hV) (.inr ⟨hbefore, fun e he => hslot e he ▸ h0⟩) fun e he hl => ?_
  obtain rfl := hslot e he
  obtain ⟨l, hl, hm⟩ := hchain hl
  refine ⟨l, hl, fun c hc hR => hV.not_mine_root hR (hm c hc), fun i l' hi' hl' c hc hc' => ?_⟩
  exact hV.not_mine_other hi' hl' hc' (hm c hc)

/-- The slots before a live one do not end the directory. -/
theorem Tidy.before_live (hV : V.Tidy hi root R) {e : Dirent} (he : V.dir[n]? = some e)
    (hl : Live e) (i : Nat) (x : Dirent) (hi' : i < n) (hx : V.dir[i]? = some x) : x 0 ≠ 0 :=
  fun h0 => hV.not_live_of_ended (Nat.le_of_lt hi') hx he h0 hl

/-- Clusters of no chain may change freely. -/
theorem Tidy.setFree (hV : V.Tidy hi root R) (hdir : V'.dir = V.dir)
    (hfat : ∀ c, V.fat c ≠ 0 → V'.fat c = V.fat c) : V'.Tidy hi root R := by
  have hout : V'.dir[V.dir.length]? = none := by rw [hdir]; simp
  have h : Change hi R V V' V.dir.length (fun c => V.fat c = 0) :=
    ⟨fun i _ => by rw [hdir], hfat, fun c hc => hV.root_fat_ne_zero hc,
      fun i l _ hl c hc => hl.fat_ne_zero hc⟩
  exact hV.change h (.inl (by rw [hdir])) fun e he => by simp [hout] at he

theorem Exact.setSlot (hV : V.Tidy hi root R) (hx : V.Exact hi R) {e' : Dirent}
    (h : V.SetSlot hi V' n e')
    (hname : Live e' → ∀ (i : Nat) (x : Dirent), i ≠ n → V.dir[i]? = some x → Live x →
      e'.name ≠ x.name)
    (hused : ∀ c, 2 ≤ c → c < hi → V'.fat c ≠ 0 → V.Mine hi n c →
      ∃ l, Live e' ∧ Chain V'.fat hi (firstCluster e') l ∧ c ∈ l) : V'.Exact hi R := by
  refine hx.change (h.change hV) (fun e he hl => ?_) fun c h2 hlt hf hc => ?_
  · obtain rfl : e' = e := by simpa [h.slot] using he
    exact hname hl
  · have hm : V.Mine hi n c := by
      rcases hc with hm | ho
      · exact hm
      · exact .inr ho
    obtain ⟨l, hl, hch, hcl⟩ := hused c h2 hlt hf hm
    exact ⟨l, ⟨e', h.slot, hl, hch⟩, hcl⟩

/-- An entry that keeps its name keeps it apart from the others. -/
theorem Exact.name_ne (hx : V.Exact hi R) {e e' : Dirent} (he : V.dir[n]? = some e) (hl : Live e)
    (hname : e'.name = e.name) (i : Nat) (x : Dirent) (hi' : i ≠ n) (hx' : V.dir[i]? = some x)
    (hlx : Live x) : e'.name ≠ x.name :=
  hname ▸ hx.names n i e x (Ne.symm hi') he hx' hl hlx

end Vol

/-! ## Edits of a slot on the disk -/

variable {m : Mount} {R : List Nat} {d d' : Disk}

/-- `d'` is `d` with the entry in slot `n` changed as `f` says. -/
def SlotEdit (m : Mount) (R : List Nat) (d d' : Disk) (n : Nat) (f : Dirent → Dirent) : Prop :=
  ∃ p edit, (slots m R)[n]? = some p ∧ EditsSlot edit p.2 f ∧ d' = editSector d p.1 edit

theorem AtSlot.edit {f : Found} {n : Nat} (h : AtSlot m R d f n) {edit : Sector → Sector}
    {g : Dirent → Dirent} (he : EditsSlot edit f.index g) (d₂ : Disk) :
    SlotEdit m R d₂ (editSector d₂ f.lba edit) n g :=
  ⟨(f.lba, f.index), edit, h.slot, he, rfl⟩

/-- The sectors of the slots can be read and written. -/
theorem lba_lt_of_mem_slots (g : Geometry m) {p : Nat × Nat} (hp : p ∈ slots m R)
    (hR : ∀ c ∈ R, 2 ≤ c ∧ c < maxCluster m) : p.1 < 0x10000000 := by
  obtain ⟨c, hc, s, hs, hp1, -⟩ := mem_slots.1 hp
  rw [hp1]
  exact g.clusterSector_lt (hR c hc).1 (hR c hc).2 hs

namespace SlotEdit

variable {n : Nat} {f : Dirent → Dirent}

theorem low (h : SlotEdit m R d d' n f) {x : Nat} (hx : x < m.dataStartLba) : d' x = d x := by
  obtain ⟨p, edit, hp, -, rfl⟩ := h
  obtain ⟨c, -, s, -, hp1, -⟩ := mem_slots.1 (List.mem_of_getElem? hp)
  unfold editSector
  rw [if_neg]
  rw [hp1]
  unfold clusterSector
  omega

theorem other (h : SlotEdit m R d d' n f) (h2R : ∀ c ∈ R, 2 ≤ c) {c s : Nat} (h2 : 2 ≤ c)
    (hc : c ∉ R) (hs : s < m.bpb.sectorsPerCluster) :
    d' (clusterSector m c s) = d (clusterSector m c s) := by
  obtain ⟨p, edit, hp, -, rfl⟩ := h
  obtain ⟨c', hc', s', hs', hp1, -⟩ := mem_slots.1 (List.mem_of_getElem? hp)
  unfold editSector
  rw [if_neg]
  intro heq
  rw [hp1] at heq
  exact hc ((Geometry.clusterSector_inj h2 (h2R c' hc') hs hs' heq).1 ▸ hc')

theorem vol_eq (g : Geometry m) (hR : R.Nodup) (h2 : ∀ c ∈ R, 2 ≤ c) {e : Dirent}
    (h : SlotEdit m R d d' n f) (he : (vol m R d).dir[n]? = some e) :
    vol m R d' = ⟨(vol m R d).fat, (vol m R d).dir.set n (f e)⟩ := by
  obtain ⟨p, edit, hp, hed, rfl⟩ := h
  obtain ⟨p', hp', rfl⟩ := vol_dir_getElem? he
  obtain rfl : p = p' := by simpa [hp] using hp'
  exact vol_editSector g hR h2 d hed hp

theorem copiesEqual (g : Geometry m) (h : SlotEdit m R d d' n f) (hd : CopiesEqual m d) :
    CopiesEqual m d' :=
  copiesEqual_congr g (fun _ hx => h.low hx) hd

/-- What an edit of slot `n` and of FAT values before it add up to. -/
theorem setSlot (g : Geometry m) (hR : R.Nodup) (h2 : ∀ c ∈ R, 2 ≤ c) {d₀ : Disk} {e : Dirent}
    (h : SlotEdit m R d d' n f) (hdir : (vol m R d).dir = (vol m R d₀).dir)
    (he : (vol m R d₀).dir[n]? = some e)
    (hfat : ∀ c, ¬(vol m R d₀).Mine (maxCluster m) n c → fatValue m d c = fatValue m d₀ c) :
    (vol m R d₀).SetSlot (maxCluster m) (vol m R d') n (f e) := by
  have hvol := h.vol_eq g hR h2 (hdir ▸ he)
  have hlt : n < (vol m R d₀).dir.length := (List.getElem?_eq_some_iff.1 he).1
  refine ⟨fun i hi => ?_, ?_, fun c hc => ?_⟩
  · rw [hvol, hdir]
    exact List.getElem?_set_ne (Ne.symm hi)
  · rw [hvol, hdir]
    exact List.getElem?_set_self hlt
  · rw [hvol]
    exact hfat c hc

end SlotEdit

/-! ## Writes to a cluster -/

theorem vol_fillCluster (g : Geometry m) (d : Disk) {c : Nat} (buffer : Nat → UInt8)
    (size : Nat) {j : Nat} (h2 : 2 ≤ c) (h2R : ∀ x ∈ R, 2 ≤ x) (hc : c ∉ R)
    (hj : j ≤ m.bpb.sectorsPerCluster) :
    vol m R (fillCluster m d c buffer size 0 j) = vol m R d :=
  vol_congr g (fun _ hx => fillCluster_of_lt d c buffer size j hx) fun x hx _ hs =>
    fillCluster_of_ne d buffer size h2 (h2R x hx) (fun hxc => hc (hxc ▸ hx)) hj hs

theorem copiesEqual_fillCluster (g : Geometry m) {d : Disk} {c : Nat} (buffer : Nat → UInt8)
    (size j : Nat) (hd : CopiesEqual m d) :
    CopiesEqual m (fillCluster m d c buffer size 0 j) :=
  copiesEqual_congr g (fun _ hx => fillCluster_of_lt d c buffer size j hx) hd

end MinervaOS.Fat32
