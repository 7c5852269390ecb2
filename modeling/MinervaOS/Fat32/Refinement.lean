import MinervaOS.Fat32.Blank
import MinervaOS.Fat32.Files

/-!
# What the calls do to the files

Each successful call, on a well-formed volume and a reliable disk, is the operation of its name on
the map from listed names to bytes.
-/

namespace MinervaOS.Fat32

open Prog

variable {m : Mount} {R : List Nat} {s s' : Fs} {d d₁ d' : Disk} {n : Nat} {e : Dirent}
  {nm sn : List UInt8} {buffer : BufferArg} {size : UInt32}

theorem not_mine_of_other {c t : Nat} (h : (vol m R d).Mine (maxCluster m) n t)
    (hc : ¬(vol m R d).Mine (maxCluster m) n c) : c ≠ t := fun hct => hc (hct ▸ h)

/-! ## What the calls change -/

/-- On `d₁` the cluster `c`, which was free or in the chain of slot `n`, holds the buffer and ends a
chain, and `d'` has it in slot `n`. -/
structure Filled (m : Mount) (R : List Nat) (buffer : BufferArg) (size : UInt32) (d d₁ d' : Disk)
    (n c : Nat) : Prop where
  two_le : 2 ≤ c
  lt : c < maxCluster m
  mine : (vol m R d).Mine (maxCluster m) n c
  dir : (vol m R d₁).dir = (vol m R d).dir
  fat : ∀ x, x ≠ c → fatValue m d₁ x = fatValue m d x
  eoc : fat32Eoc ≤ fatValue m d₁ c
  data : ∀ x k, d₁ (clusterSector m x k) = fillCluster m d c (buffer.getD fun _ => 0) size.toNat
    0 m.bpb.sectorsPerCluster (clusterSector m x k)
  edit : SlotEdit m R d₁ d' n fun x => (x.withCluster c).withSize size.toNat

section Change

variable (g : Geometry m) (ht : (vol m R d).Tidy (maxCluster m) m.bpb.rootCluster R)

include g

theorem Filled.chain {c : Nat} (h : Filled m R buffer size d d₁ d' n c) :
    Chain (fatValue m d₁) (maxCluster m)
      (firstCluster ((e.withCluster c).withSize size.toNat)) [c] := by
  have hmax := g.maxCluster_lt
  have hlt := h.lt
  rw [Dirent.firstCluster_withSize,
    Dirent.firstCluster_withCluster _ (by unfold fat32Eoc at hmax; omega)]
  exact .single h.two_le h.lt (Nat.lt_trans h.lt g.maxCluster_lt) h.eoc

include ht

theorem Filled.replaced {c : Nat} (h : Filled m R buffer size d d₁ d' n c)
    (he : Entry m R d sn n e) :
    Replaced m R d d' n e ((e.withCluster c).withSize size.toNat) := by
  refine h.edit.replaced g ht (others_of_mine ht (fun x hx => ?_) fun x h2x hx k hk => ?_) h.dir
    he.dir
  · exact h.fat x (not_mine_of_other h.mine hx)
  · rw [h.data]
    exact fillCluster_of_ne _ _ _ h.two_le h2x (not_mine_of_other h.mine hx) (Nat.le_refl _) hk

/-- A write that succeeds has nothing to write, or fills the only cluster of its file. -/
theorem WriteOut.filled (h : WriteOut m R (some nm) buffer size d true d') :
    (∃ sn n e, makeShortNameChecked nm = some sn ∧ Entry m R d sn n e ∧ e.attr &&& 0x10 = 0 ∧
      size = 0 ∧ d' = d) ∨
    ∃ sn n e c d₁, makeShortNameChecked nm = some sn ∧ Entry m R d sn n e ∧ e.attr &&& 0x10 = 0 ∧
      size ≠ 0 ∧ size.toNat ≤ bytesPerCluster m ∧ Filled m R buffer size d d₁ d' n c := by
  cases h with
  | empty hnm hsn he hattr h0 =>
    obtain rfl := Option.some.inj hnm
    exact .inl ⟨_, _, _, hsn, he, hattr, h0, rfl⟩
  | @reuse _ sn n e _ hnm hsn he hattr h0 hle hfirst heoc hse =>
    obtain rfl := Option.some.inj hnm
    obtain ⟨l, hch⟩ := ht.chained n e he.dir he.live
    have hmem := hch.start_mem hfirst
    have hmine : (vol m R d).Mine (maxCluster m) n (firstCluster e) :=
      .inr ⟨l, ⟨e, he.dir, he.live, hch⟩, hmem⟩
    have h2 := hch.two_le hmem
    have hvol :=
      vol_fillCluster g d (buffer.getD fun _ => 0) size.toNat h2 (fun _ => ht.root.two_le)
      (fun hR => ht.not_mine_root hR hmine) (Nat.le_refl _)
    have hfat := congrArg Vol.fat hvol
    exact .inr ⟨sn, n, e, firstCluster e, _, hsn, he, hattr, h0, hle, h2, hch.lt _ hmem, hmine,
      congrArg Vol.dir hvol, fun x _ => congrFun hfat x,
      Nat.le_trans heoc (Nat.le_of_eq (congrFun hfat _).symm), fun _ _ => rfl, hse⟩
  | @alloc _ sn n t e _ hnm hsn he hattr h0 hle hfirst hsz h2 hlt hfree hse =>
    obtain rfl := Option.some.inj hnm
    have hmine : (vol m R d).Mine (maxCluster m) n t := .inl hfree
    have hvol :=
      vol_fillCluster g d (buffer.getD fun _ => 0) size.toNat h2 (fun _ => ht.root.two_le)
      (fun hR => ht.not_mine_root hR hmine) (Nat.le_refl _)
    have hvol₁ := vol_fatWrite g (R := R) (v := fat32EocMark)
      (fillCluster m d t (buffer.getD fun _ => 0) size.toNat 0 m.bpb.sectorsPerCluster) hlt
      g.fatCount_pos (Nat.le_refl _)
    rw [hvol, eocMark_mod] at hvol₁
    have hfat := fun x => congrFun (congrArg Vol.fat hvol₁) x
    simp only [Function.update_apply] at hfat
    have hdir := congrArg Vol.dir hvol₁
    refine .inr ⟨sn, n, e, t, _, hsn, he, hattr, h0, hle, h2, hlt, hmine, hdir,
      fun x hx => (hfat x).trans (if_neg hx), ?_, fun x k => ?_, hse⟩
    · exact Nat.le_trans eoc_le_eocMark (Nat.le_of_eq ((hfat t).trans (if_pos rfl)).symm)
    · refine fatWrite_of_ge g _ _ hlt (Nat.le_refl _) ?_
      unfold clusterSector
      omega

/-- The chain of slot `n` freed and its entry edited. -/
theorem SlotEdit.replaced_freed {upd : Dirent → Dirent} {c : List Nat} (he : Entry m R d sn n e)
    (hch : Chain (fatValue m d) (maxCluster m) (firstCluster e) c)
    (hse : SlotEdit m R (freeAll m d c) d' n upd) : Replaced m R d d' n e (upd e) := by
  have hvol := vol_freeAll g (R := R) c d hch.lt
  have hmine : ∀ x ∈ c, (vol m R d).Mine (maxCluster m) n x := fun x hx =>
    .inr ⟨c, ⟨e, he.dir, he.live, hch⟩, hx⟩
  refine hse.replaced g ht (others_of_mine ht (fun x hx => ?_) fun x _ _ k _ => ?_)
    (by rw [hvol]) he.dir
  · have := congrFun (congrArg Vol.fat hvol) x
    exact this.trans (if_neg fun hxc => hx (hmine x hxc))
  · refine freeAll_of_ge g c d hch.lt ?_
    unfold clusterSector
    omega

end Change

section Out

variable (g : Geometry m) (hw : WellFormed m R d) (hc : Consistent m R d')

include g hw hc

theorem CreateOut.sets (h : CreateOut m R (some nm) d true d') :
    files m R d (nm.map upperAscii) = none ∧ Sets m R d d' (nm.map upperAscii) (some []) := by
  have ht := hw.consistent.tidy
  cases h with
  | @done _ sn n e _ hnm hsn hno hfree hse =>
  obtain rfl := Option.some.inj hnm
  obtain ⟨hshort, hshown⟩ := shortName_of_checked hsn
  have hname := Dirent.name_newDirent (length_makeShortNameChecked hsn)
  have hlive := live_newDirent hsn
  have hfile : IsFile (newDirent sn) := ⟨hlive, by rw [attr_newDirent]; decide⟩
  have hrep := hse.replaced g ht (Others.refl d n) rfl hfree.dir
  have hw' : WellFormed m R d' := hrep.wellFormed hw hc fun _ => by
    refine ⟨hname.symm ▸ hshort, [], ?_, by rw [size_newDirent]; exact Nat.zero_le _⟩
    rw [firstCluster_newDirent]
    exact .nil
  have hempty : contents m d' (newDirent sn) = [] := by simp [contents, size_newDirent]
  refine ⟨hshown ▸ hno.files_eq hw hsn, ?_⟩
  have hsets := hrep.sets hw hw' (nm.map upperAscii)
    (fun hl => absurd hl (not_live_of_free hfree.free)) (fun _ => ⟨hfile, by rw [hname, hshown]⟩)
    (.inr hlive)
  rwa [if_pos hlive, hempty] at hsets

theorem WriteOut.sets (h : WriteOut m R (some nm) buffer size d true d') :
    (files m R d (nm.map upperAscii)).isSome ∧ if size = 0 then d' = d else
      Sets m R d d' (nm.map upperAscii) (some (bufferBytes buffer size.toNat)) := by
  have ht := hw.consistent.tidy
  rcases h.filled g ht with ⟨sn, n, e, hsn, he, hattr, h0, rfl⟩ |
    ⟨sn, n, e, c, d₁, hsn, he, hattr, h0, hle, hf⟩
  · refine ⟨?_, by rw [if_pos h0]⟩
    rw [← (shortName_of_checked hsn).2, he.files_eq hw hattr]
    rfl
  obtain ⟨hshort, hshown⟩ := shortName_of_checked hsn
  refine ⟨by rw [← hshown, he.files_eq hw hattr]; rfl, ?_⟩
  rw [if_neg h0]
  have hrep := hf.replaced g ht he
  have hlive := live_written he.live c size.toNat
  have hsize : ((e.withCluster c).withSize size.toNat).size = size.toNat := by
    rw [Dirent.size_withSize]
    exact Nat.mod_eq_of_lt size.toNat_lt
  have hch₁ := hf.chain g (e := e)
  obtain ⟨hch', hcont⟩ := hf.edit.contents_eq g (fun _ => ht.root.two_le) hch₁
    (by simpa [List.Disjoint] using fun hR => ht.not_mine_root hR hf.mine)
  have hcov : ((e.withCluster c).withSize size.toNat).size ≤ [c].length * bytesPerCluster m := by
    rwa [hsize, List.length_singleton, Nat.one_mul]
  have hname : ((e.withCluster c).withSize size.toNat).name = sn := by simpa using he.name
  have hw' : WellFormed m R d' := hrep.wellFormed hw hc fun _ =>
    ⟨hname.symm ▸ hshort, [c], hch', hcov⟩
  have hbytes : contents m d' ((e.withCluster c).withSize size.toNat) =
      bufferBytes buffer size.toNat := by
    rw [hcont, contents_eq g hch₁ hcov, hsize]
    refine List.map_congr_left fun i hi => ?_
    have hi' : i < bytesPerCluster m := by
      have := List.mem_range.1 hi
      omega
    rw [chainByte_singleton _ _ hi', clusterByte, hf.data]
    exact clusterByte_fill d c _ hi' (List.mem_range.1 hi)
  have hsets := hrep.sets hw hw' (nm.map upperAscii)
    (fun _ => ⟨⟨he.live, hattr⟩, by rw [he.name, hshown]⟩)
    (fun _ => ⟨⟨hlive, by simpa using hattr⟩, by rw [hname, hshown]⟩) (.inr hlive)
  rwa [if_pos hlive, hbytes] at hsets

omit g in
theorem AppendOut.wellFormed (h : AppendOut m R (some nm) buffer size d false d') :
    WellFormed m R d' := by
  cases h with
  | unchanged => exact hw
  | @cut n e l l₁ _ he hext =>
    refine ⟨hc, fun i x hx hl => hw.named i x (hext.dir ▸ hx) hl, fun i x hx hl => ?_⟩
    rw [hext.dir] at hx
    by_cases hin : i = n
    · subst hin
      obtain rfl := Option.some.inj (he.symm.trans hx)
      exact ⟨l₁, hext.chain,
        Nat.le_trans hext.covers (Nat.mul_le_mul_right _ hext.longer.length_le)⟩
    · obtain ⟨k, hk, hcov⟩ := hw.covered i x hx hl
      exact ⟨k, (hext.others i x k hin hx hl hk).1, hcov⟩

theorem AppendOut.sets (h : AppendOut m R (some nm) buffer size d true d') :
    (size = 0 ∧ d' = d) ∨ ∃ old, files m R d (nm.map upperAscii) = some old ∧
      Sets m R d d' (nm.map upperAscii) (some (old ++ bufferBytes buffer size.toNat)) := by
  have ht := hw.consistent.tidy
  cases h with
  | empty h0 => exact .inl ⟨h0, rfl⟩
  | @done _ sn n e l l₁ d₁ _ hnm hsn he hattr hsum hext hroom hbytes hse =>
  obtain rfl := Option.some.inj hnm
  obtain ⟨hshort, hshown⟩ := shortName_of_checked hsn
  have hlive : Live (e.withSize (e.size + size.toNat)) :=
    (live_congr (Dirent.withSize_apply _ _ (by omega)) (by simp)).2 he.live
  have hsize : (e.withSize (e.size + size.toNat)).size = e.size + size.toNat := by
    rw [Dirent.size_withSize, Nat.mod_eq_of_lt hsum]
  have hname : (e.withSize (e.size + size.toNat)).name = sn := by simpa using he.name
  have hch₁ : Chain (fatValue m d₁) (maxCluster m)
      (firstCluster (e.withSize (e.size + size.toNat))) l₁ := by
    rw [Dirent.firstCluster_withSize]
    exact hext.chain
  have hcov : (e.withSize (e.size + size.toNat)).size ≤ l₁.length * bytesPerCluster m := by
    rwa [hsize]
  have hrep := hse.replaced g ht hext.others hext.dir he.dir
  -- the chain is off the root directory on `d'`, and so on `d₁`
  have hlow : fatValue m d' = fatValue m d₁ := fatValue_congr g fun _ => hse.low
  have hoff : l₁.Disjoint R :=
    hc.tidy.off_root n l₁ ⟨_, hrep.slot', hlive, hch₁.congr fun x _ => congrFun hlow x⟩
  obtain ⟨hch', hcont⟩ := hse.contents_eq g (fun _ => ht.root.two_le) hch₁ hoff
  have hw' : WellFormed m R d' := hrep.wellFormed hw hc fun _ =>
    ⟨hname.symm ▸ hshort, l₁, hch', hcov⟩
  have hnew : contents m d' (e.withSize (e.size + size.toNat)) =
      contents m d e ++ bufferBytes buffer size.toNat := by
    rw [hcont, contents_eq g hch₁ hcov, hsize, contents_eq g hext.old hext.covers, bufferBytes,
      List.range_add, List.map_append, List.map_map]
    congr 1
    · exact List.map_congr_left fun i hi => hext.bytes i (List.mem_range.1 hi)
    · exact List.map_congr_left fun i hi => hbytes i (List.mem_range.1 hi)
  refine .inr ⟨contents m d e, by rw [← hshown, he.files_eq hw hattr], ?_⟩
  have hsets := hrep.sets hw hw' (nm.map upperAscii)
    (fun _ => ⟨⟨he.live, hattr⟩, by rw [he.name, hshown]⟩)
    (fun _ => ⟨⟨hlive, by simpa using hattr⟩, by rw [hname, hshown]⟩) (.inr hlive)
  rwa [if_pos hlive, hnew] at hsets

/-- `fs_truncate_file` and `fs_delete_file`: `v` is what the edited entry shows. -/
theorem ReleaseOut.sets {upd : Dirent → Dirent} (hupd : Unlinks upd)
    (hsize : ∀ e, Live (upd e) → (upd e).size = 0)
    (hattr' : ∀ e, Live (upd e) → (upd e).attr = e.attr) {v : Option (List UInt8)}
    (hv : ∀ e, Live e → (if Live (upd e) then some [] else none) = v)
    (h : ReleaseOut m R upd (some nm) d true d') :
    (files m R d (nm.map upperAscii)).isSome ∧ Sets m R d d' (nm.map upperAscii) v := by
  have ht := hw.consistent.tidy
  cases h with
  | @done _ sn n e c _ hnm hsn he hattr hch hse =>
  obtain rfl := Option.some.inj hnm
  obtain ⟨hshort, hshown⟩ := shortName_of_checked hsn
  have hrep := hse.replaced_freed g ht he hch
  have hw' : WellFormed m R d' := hrep.wellFormed hw hc fun hl => by
    refine ⟨by rw [hupd.name e hl, he.name]; exact hshort, [], ?_, by rw [hsize e hl]; omega⟩
    rw [hupd.firstCluster e hl]
    exact .nil
  have hsets := hrep.sets hw hw' (nm.map upperAscii)
    (fun _ => ⟨⟨he.live, hattr⟩, by rw [he.name, hshown]⟩)
    (fun hl => ⟨⟨hl, by rw [hattr' e hl, hattr]⟩, by rw [hupd.name e hl, he.name, hshown]⟩)
    (.inl he.live)
  refine ⟨by rw [← hshown, he.files_eq hw hattr]; rfl, ?_⟩
  have hempty : (if Live (upd e) then some (contents m d' (upd e)) else none) = v := by
    rw [← hv e he.live]
    split
    · rename_i hl
      simp [contents, hsize e hl]
    · rfl
  rwa [hempty] at hsets

theorem RenameOut.renames {old new : List UInt8} (hold : (makeShortNameChecked old).isSome)
    (h : RenameOut m R (some old) (some new) d true d') :
    Renames m R d d' (old.map upperAscii) (new.map upperAscii) := by
  have ht := hw.consistent.tidy
  obtain ⟨so, hso⟩ := Option.isSome_iff_exists.1 hold
  cases h with
  | @done _ _ sn n e _ ho hn hsn he hattr hno hse =>
  obtain rfl := Option.some.inj ho
  obtain rfl := Option.some.inj hn
  rw [makeShortName_of_checked hso] at he
  have hshown := (shortName_of_checked hso).2
  obtain ⟨hshort, hshown'⟩ := shortName_of_checked hsn
  have hlive := live_withName hsn he.live
  have hname : (e.withName sn).name = sn := Dirent.name_withName e (length_makeShortNameChecked hsn)
  have hrep := hse.replaced g ht (Others.refl d n) rfl he.dir
  obtain ⟨l, hch, hcov⟩ := hw.covered n e he.dir he.live
  have hch₁ : Chain (fatValue m d) (maxCluster m) (firstCluster (e.withName sn)) l := by
    rwa [Dirent.firstCluster_withName]
  obtain ⟨hch', hcont⟩ := hse.contents_eq g (fun _ => ht.root.two_le) hch₁
    (ht.off_root n l ⟨e, he.dir, he.live, hch⟩)
  have hsame : contents m d' (e.withName sn) = contents m d e := by
    rw [hcont]
    simp [contents]
  have hw' : WellFormed m R d' := hrep.wellFormed hw hc fun _ =>
    ⟨hname.symm ▸ hshort, l, hch', by rwa [Dirent.size_withName]⟩
  have hfile : IsFile e := ⟨he.live, hattr⟩
  have hfile' : IsFile (e.withName sn) := ⟨hlive, by simpa using hattr⟩
  refine ⟨hw', by rw [← hshown, he.files_eq hw hattr]; rfl,
    by rw [← hshown', hno.files_eq hw hsn], funext fun x => ?_,
    hrep.listing_filter hw _ (fun _ => by simp [he.name, hshown])
      fun _ => by simp [hname, hshown']⟩
  rw [hrep.files_eq hw hw', hname, he.name, hshown, hshown', hsame, ← hshown,
    he.files_eq hw hattr, hshown]
  simp only [hfile, hfile', true_and, Function.update_apply, eq_comm]

end Out

/-! ## The calls -/

/-- A state of the driver over a well-formed volume and a reliable disk. -/
structure Ready (m : Mount) (R : List Nat) (s : Fs) : Prop where
  safe : Safe m R s
  whole : Whole m R s
  wellFormed : WellFormed m R s.disk

theorem WellFormed.ready (hw : WellFormed m R d) (sector : Sector) :
    Ready m R (Fs.start d sector []) :=
  ⟨hw.consistent.safe sector [], hw.consistent.whole sector, hw⟩

theorem sets_refl (hw : WellFormed m R d) (name : List UInt8) :
    Sets m R d d name (files m R d name) :=
  ⟨hw, (Function.update_eq_self name _).symm, rfl⟩

theorem whole_call (hwh : Whole m R s) {p : Prog Fs Bool} {P : Bool → Fs → Prop}
    (h : Total p s fun ok s' => Extends s s' ∧ Safe m R s' ∧
      (Whole m R s → Whole m R s' ∧ P ok s')) :
    Total p s fun ok s' => Safe m R s' ∧ Whole m R s' ∧ P ok s' :=
  h.mono fun _ _ ⟨_, hs, hw⟩ => ⟨hs, hw hwh⟩

theorem safe_call {p : Prog Fs Bool} {Q : Bool → Fs → Prop}
    (h : Total p s fun ok s' => Extends s s' ∧ Safe m R s' ∧ Q ok s') :
    Total p s fun ok s' => Extends s s' ∧ (¬Torn s s' → Safe m R s') ∧ Q ok s' :=
  h.mono fun _ _ ⟨hext, hs, hq⟩ => ⟨hext, fun _ => hs, hq⟩

section Calls

variable (g : Geometry m) (hr : Ready m R s)

include hr

/-- From what a call's description says on a reliable disk to what the call does to the files. -/
theorem Ready.call {p : Prog Fs Bool} {P : Bool → Disk → Prop} {Q : Bool → Disk → Prop}
    (h : Total p s fun ok s' => Extends s s' ∧ (¬Torn s s' → Safe m R s') ∧
      (Whole m R s → Whole m R s' ∧ P ok s'.disk))
    (hQ : ∀ ok d', Consistent m R d' → P ok d' → WellFormed m R d' ∧ Q ok d') :
    Total p s fun ok s' => Ready m R s' ∧ Q ok s'.disk := by
  refine h.mono fun ok s' ⟨hext, hs, hwhole⟩ => ?_
  obtain ⟨hwh, hP⟩ := hwhole hr.whole
  have hs' := hs (hext.not_torn hr.whole.reliable)
  obtain ⟨hw, hq⟩ := hQ ok s'.disk (hs'.consistent hwh) hP
  exact ⟨⟨hs', hwh, hw⟩, hq⟩

include g

theorem fsCreate_files : Total (fsCreate m (some nm)) s fun ok s' => Ready m R s' ∧
    (ok = true → files m R s.disk (nm.map upperAscii) = none ∧
      Sets m R s.disk s'.disk (nm.map upperAscii) (some [])) := by
  refine hr.call (Q := fun ok d' => ok = true → _ ∧ Sets m R s.disk d' _ _)
    (safe_call (fsCreate_spec g (some nm) hr.safe)) fun ok d' hc hout => ?_
  cases ok with
  | true =>
    have hsets := hout.sets g hr.wellFormed hc
    exact ⟨hsets.2.wellFormed, fun _ => hsets⟩
  | false =>
    cases hout with
    | refused _ => exact ⟨hr.wellFormed, by simp⟩

theorem fsWriteFile_files : Total (fsWriteFile m (some nm) buffer size) s fun ok s' =>
    Ready m R s' ∧ (ok = true → (files m R s.disk (nm.map upperAscii)).isSome ∧
      if size = 0 then s'.disk = s.disk else
        Sets m R s.disk s'.disk (nm.map upperAscii) (some (bufferBytes buffer size.toNat))) := by
  refine hr.call (Q := fun ok d' => ok = true → _ ∧ if size = 0 then d' = s.disk else
    Sets m R s.disk d' _ _) (safe_call (fsWriteFile_spec g (some nm) buffer size hr.safe))
    fun ok d' hc hout => ?_
  cases ok with
  | true =>
    have hsets := hout.sets g hr.wellFormed hc
    refine ⟨?_, fun _ => hsets⟩
    obtain ⟨-, hsets⟩ := hsets
    split at hsets
    · exact hsets ▸ hr.wellFormed
    · exact hsets.wellFormed
  | false =>
    cases hout with
    | refused _ => exact ⟨hr.wellFormed, by simp⟩

theorem fsAppendFile_files : Total (fsAppendFile m (some nm) buffer size) s fun ok s' =>
    Ready m R s' ∧ (ok = true → (size ≠ 0 → (files m R s.disk (nm.map upperAscii)).isSome) ∧
      Sets m R s.disk s'.disk (nm.map upperAscii)
        ((files m R s.disk (nm.map upperAscii)).map (· ++ bufferBytes buffer size.toNat))) := by
  refine hr.call (Q := fun ok d' => ok = true → _ ∧ Sets m R s.disk d' _ _)
    (safe_call (fsAppendFile_spec g (some nm) buffer size hr.safe)) fun ok d' hc hout => ?_
  cases ok with
  | true =>
    rcases hout.sets g hr.wellFormed hc with ⟨rfl, hd⟩ | ⟨bytes, hf, hsets⟩
    · rw [hd]
      refine ⟨hr.wellFormed, fun _ => ⟨by simp, ?_⟩⟩
      simpa [bufferBytes] using sets_refl hr.wellFormed (nm.map upperAscii)
    · rw [hf]
      exact ⟨hsets.wellFormed, fun _ => ⟨by simp, hsets⟩⟩
  | false => exact ⟨hout.wellFormed hr.wellFormed hc, by simp⟩

theorem fsTruncateFile_files : Total (fsTruncateFile m (some nm)) s fun ok s' => Ready m R s' ∧
    (ok = true → (files m R s.disk (nm.map upperAscii)).isSome ∧
      Sets m R s.disk s'.disk (nm.map upperAscii) (some [])) := by
  refine hr.call (Q := fun ok d' => ok = true → _ ∧ Sets m R s.disk d' _ _)
    (fsTruncateFile_spec g (some nm) hr.safe) fun ok d' hc hout => ?_
  cases ok with
  | true =>
    have hsets := hout.sets g hr.wellFormed hc unlinks_emptied (by simp) (by simp)
      fun e hl => if_pos (live_written hl 0 0)
    exact ⟨hsets.2.wellFormed, fun _ => hsets⟩
  | false =>
    cases hout with
    | refused _ => exact ⟨hr.wellFormed, by simp⟩

theorem fsDeleteFile_files : Total (fsDeleteFile m (some nm)) s fun ok s' => Ready m R s' ∧
    (ok = true → (files m R s.disk (nm.map upperAscii)).isSome ∧
      Sets m R s.disk s'.disk (nm.map upperAscii) none) := by
  refine hr.call (Q := fun ok d' => ok = true → _ ∧ Sets m R s.disk d' _ _)
    (fsDeleteFile_spec g (some nm) hr.safe) fun ok d' hc hout => ?_
  cases ok with
  | true =>
    have hdead : ¬Live deletedDirent := by decide
    have hsets := hout.sets g hr.wellFormed hc unlinks_deleted (fun _ h => absurd h hdead)
      (fun _ h => absurd h hdead) fun e _ => if_neg hdead
    exact ⟨hsets.2.wellFormed, fun _ => hsets⟩
  | false =>
    cases hout with
    | refused _ => exact ⟨hr.wellFormed, by simp⟩

theorem fsRenameFile_files {old new : List UInt8} (hold : (makeShortNameChecked old).isSome) :
    Total (fsRenameFile m (some old) (some new)) s fun ok s' => Ready m R s' ∧
      (ok = true → Renames m R s.disk s'.disk (old.map upperAscii) (new.map upperAscii)) := by
  refine hr.call (Q := fun ok d' => ok = true → Renames m R s.disk d' _ _)
    (safe_call (fsRenameFile_spec g (some old) (some new) hr.safe)) fun ok d' hc hout => ?_
  cases ok with
  | true =>
    have hren := hout.renames g hr.wellFormed hc hold
    exact ⟨hren.wellFormed, fun _ => hren⟩
  | false =>
    cases hout with
    | refused => exact ⟨hr.wellFormed, by simp⟩

theorem fsReadFile_files (hnm : (makeShortNameChecked nm).isSome) {bytes : List UInt8}
    (hf : files m R s.disk (nm.map upperAscii) = some bytes) (hbuf : buffer.isSome ∨ size = 0)
    (hroom : bytes.length ≤ size.toNat) :
    Total (fsReadFile m (some nm) buffer size) s fun r s' => s'.disk = s.disk ∧ r.1 = true ∧
      r.2.1 = bytes.length ∧ bufferBytes r.2.2 bytes.length = bytes := by
  have hw := hr.wellFormed
  obtain ⟨sn, hsn⟩ := Option.isSome_iff_exists.1 hnm
  obtain ⟨n, e, he, hattr, rfl⟩ := entry_of_files hw hsn hf
  obtain ⟨l, hch, hcov⟩ := hw.covered n e he.dir he.live
  have hlen := length_contents g hw he.dir he.live
  rw [← makeShortName_of_checked hsn] at he
  rw [hlen] at hroom ⊢
  refine (fsReadFile_spec g hr.safe hr.whole he hattr hch hcov buffer size hbuf hroom).mono ?_
  rintro r s' ⟨hr', hok, hsize, hbytes⟩
  exact ⟨hr'.disk, hok, hsize, hbytes⟩

end Calls

/-- On a well-formed volume and a reliable disk the calls are the map's operations. -/
theorem calls_refine (g : Geometry m) (hw : WellFormed m R d) (sector : Sector)
    {nm old new : List UInt8} (hnm : (makeShortNameChecked nm).isSome)
    (hold : (makeShortNameChecked old).isSome) (buffer : BufferArg) (size : UInt32) :
    Total (fsCreate m (some nm)) (Fs.start d sector []) (fun ok s' => ok = true →
      files m R d (nm.map upperAscii) = none ∧
        Sets m R d s'.disk (nm.map upperAscii) (some [])) ∧
    Total (fsWriteFile m (some nm) buffer size) (Fs.start d sector []) (fun ok s' =>
      ok = true → size ≠ 0 → (files m R d (nm.map upperAscii)).isSome ∧
        Sets m R d s'.disk (nm.map upperAscii) (some (bufferBytes buffer size.toNat))) ∧
    Total (fsAppendFile m (some nm) buffer size) (Fs.start d sector []) (fun ok s' =>
      ok = true → (size ≠ 0 → (files m R d (nm.map upperAscii)).isSome) ∧
        Sets m R d s'.disk (nm.map upperAscii)
          ((files m R d (nm.map upperAscii)).map (· ++ bufferBytes buffer size.toNat))) ∧
    Total (fsTruncateFile m (some nm)) (Fs.start d sector []) (fun ok s' => ok = true →
      (files m R d (nm.map upperAscii)).isSome ∧
        Sets m R d s'.disk (nm.map upperAscii) (some [])) ∧
    Total (fsDeleteFile m (some nm)) (Fs.start d sector []) (fun ok s' => ok = true →
      (files m R d (nm.map upperAscii)).isSome ∧
        Sets m R d s'.disk (nm.map upperAscii) none) ∧
    Total (fsRenameFile m (some old) (some new)) (Fs.start d sector []) (fun ok s' => ok = true →
      Renames m R d s'.disk (old.map upperAscii) (new.map upperAscii)) ∧
    (∀ bytes, files m R d (nm.map upperAscii) = some bytes → (buffer.isSome ∨ size = 0) →
      bytes.length ≤ size.toNat →
      Total (fsReadFile m (some nm) buffer size) (Fs.start d sector []) fun r s' =>
        s'.disk = d ∧ r.1 = true ∧ r.2.1 = bytes.length ∧
          bufferBytes r.2.2 bytes.length = bytes) := by
  have hr := hw.ready sector
  refine ⟨(fsCreate_files g hr).mono fun _ _ h => h.2, (fsWriteFile_files g hr).mono ?_,
    (fsAppendFile_files g hr).mono fun _ _ h => h.2,
      (fsTruncateFile_files g hr).mono fun _ _ h => h.2,
    (fsDeleteFile_files g hr).mono fun _ _ h => h.2,
    (fsRenameFile_files g hr hold).mono fun _ _ h => h.2,
    fun bytes hf hbuf hroom => fsReadFile_files g hr hnm hf hbuf hroom⟩
  rintro ok s' ⟨-, h⟩ hok hne
  obtain ⟨hsome, hsets⟩ := h hok
  rw [if_neg hne] at hsets
  exact ⟨hsome, hsets⟩

theorem wellFormed_tiny : WellFormed tiny [2] (blankDisk tiny) where
  consistent := consistent_tiny
  named n e he hl := absurd hl (not_live_blank tiny_geometry (by decide) he).2
  covered n e he hl := absurd hl (not_live_blank tiny_geometry (by decide) he).2

theorem calls_refine_tiny :
    Total (fsCreate tiny (some [0x61])) (Fs.start (blankDisk tiny) (fun _ => 0) []) fun ok s' =>
      ok = true → files tiny [2] (blankDisk tiny) [0x41] = none ∧
        Sets tiny [2] (blankDisk tiny) s'.disk [0x41] (some []) :=
  (@calls_refine tiny [2] (blankDisk tiny) tiny_geometry wellFormed_tiny _ [0x61] [0x61] [0x62]
    (by decide) (by decide) none 0).1

end MinervaOS.Fat32
