import MinervaOS.Fat32.Reading

/-!
# The files of a volume

A volume is, to its user, a map from listed names to bytes. On a well-formed volume each call that
succeeds does to that map what its name says, and nothing else: the other files keep their names,
sizes and bytes.
-/

namespace MinervaOS.Fat32

open Prog

variable {m : Mount} {R : List Nat} {s s' : Fs} {d d₁ d' : Disk} {n : Nat} {e e' : Dirent}

/-- An entry that is not a directory's. -/
def IsFile (e : Dirent) : Prop := Live e ∧ e.attr &&& 0x10 = 0

instance : DecidablePred IsFile := fun e =>
  inferInstanceAs (Decidable (Live e ∧ e.attr &&& 0x10 = 0))

/-- The bytes of the file listed as `name`. -/
def files (m : Mount) (R : List Nat) (d : Disk) (name : List UInt8) : Option (List UInt8) :=
  ((vol m R d).dir.find? fun e => decide (IsFile e ∧ shortNameToString e.name = name)).map
    (contents m d)

/-- A consistent volume whose entries have short names and whose chains reach to the end of the
files. -/
structure WellFormed (m : Mount) (R : List Nat) (d : Disk) : Prop where
  consistent : Consistent m R d
  named : ∀ (n : Nat) (e : Dirent), (vol m R d).dir[n]? = some e → Live e → ShortName e.name
  covered : ∀ (n : Nat) (e : Dirent), (vol m R d).dir[n]? = some e → Live e →
    ∃ l, Chain (fatValue m d) (maxCluster m) (firstCluster e) l ∧
      e.size ≤ l.length * bytesPerCluster m

/-- Listed names are all different. -/
theorem WellFormed.slot_unique (h : WellFormed m R d) {i j : Nat} {x y : Dirent}
    (hx : (vol m R d).dir[i]? = some x) (hy : (vol m R d).dir[j]? = some y) (hlx : Live x)
    (hly : Live y) (heq : shortNameToString x.name = shortNameToString y.name) : i = j := by
  by_contra hne
  exact h.consistent.exact.names i j x y hne hx hy hlx hly
    ((h.named i x hx hlx).inj (h.named j y hy hly) heq)

/-- The entry of the file listed as `name`. -/
def listedFile (m : Mount) (R : List Nat) (d : Disk) (name : List UInt8) : Option Dirent :=
  (vol m R d).dir.find? fun e => decide (IsFile e ∧ shortNameToString e.name = name)

theorem listedFile_eq_some (h : WellFormed m R d) {name : List UInt8} {e : Dirent} :
    listedFile m R d name = some e ↔ ∃ n : Nat, (vol m R d).dir[n]? = some e ∧ IsFile e ∧
      shortNameToString e.name = name := by
  unfold listedFile
  constructor
  · intro he
    have hp := List.find?_some he
    obtain ⟨n, hn⟩ := List.getElem?_of_mem (List.mem_of_find?_eq_some he)
    simp only [decide_eq_true_eq] at hp
    exact ⟨n, hn, hp⟩
  · rintro ⟨n, he, hf, hname⟩
    cases hfind : (vol m R d).dir.find? fun e =>
        decide (IsFile e ∧ shortNameToString e.name = name) with
    | none =>
      have hno := List.find?_eq_none.1 hfind e (List.mem_of_getElem? he)
      simp [hf, hname] at hno
    | some x =>
      have hp := List.find?_some hfind
      obtain ⟨k, hk⟩ := List.getElem?_of_mem (List.mem_of_find?_eq_some hfind)
      simp only [decide_eq_true_eq] at hp
      obtain rfl := h.slot_unique hk he hp.1.1 hf.1 (hp.2.trans hname.symm)
      exact hk.symm.trans he

theorem files_eq_some (h : WellFormed m R d) {name bytes : List UInt8} :
    files m R d name = some bytes ↔
      ∃ (n : Nat) (e : Dirent), (vol m R d).dir[n]? = some e ∧ IsFile e ∧
      shortNameToString e.name = name ∧ contents m d e = bytes := by
  have hfiles : files m R d name = (listedFile m R d name).map (contents m d) := rfl
  rw [hfiles, Option.map_eq_some_iff]
  constructor
  · rintro ⟨e, he, hbytes⟩
    obtain ⟨n, hn, hf, hname⟩ := (listedFile_eq_some h).1 he
    exact ⟨n, e, hn, hf, hname, hbytes⟩
  · rintro ⟨n, e, hn, hf, hname, hbytes⟩
    exact ⟨e, (listedFile_eq_some h).2 ⟨n, hn, hf, hname⟩, hbytes⟩

theorem length_contents (g : Geometry m) (h : WellFormed m R d) (he : (vol m R d).dir[n]? = some e)
    (hl : Live e) : (contents m d e).length = e.size := by
  obtain ⟨l, hch, hcov⟩ := h.covered n e he hl
  rw [contents_eq g hch hcov, List.length_map, List.length_range]

/-- The map shows what the listing shows. -/
theorem mem_listing_of_files (g : Geometry m) (h : WellFormed m R d) {name bytes : List UInt8}
    (hf : files m R d name = some bytes) : ⟨name, bytes.length, bytes⟩ ∈ listing m R d := by
  obtain ⟨n, e, he, hfile, rfl, rfl⟩ := (files_eq_some h).1 hf
  refine List.mem_map.2 ⟨e, List.mem_filter.2 ⟨List.mem_of_getElem? he, by simpa using hfile.1⟩, ?_⟩
  rw [fileView, length_contents g h he hfile.1]

/-! ## A change of one slot -/

/-- Slot `n`, which held `e`, holds `e'`, and the files of the other slots are as they were. -/
structure Replaced (m : Mount) (R : List Nat) (d d' : Disk) (n : Nat) (e e' : Dirent) : Prop where
  slot : (vol m R d).dir[n]? = some e
  dir : (vol m R d').dir = (vol m R d).dir.set n e'
  others : Others m R d d' n

theorem Others.refl (d : Disk) (n : Nat) : Others m R d d n := fun _ _ _ _ _ _ hk => ⟨hk, rfl⟩

/-- Clusters that are free or in the chain of slot `n` may change. -/
theorem others_of_mine (ht : (vol m R d).Tidy (maxCluster m) m.bpb.rootCluster R)
    (hfat : ∀ c, ¬(vol m R d).Mine (maxCluster m) n c → fatValue m d' c = fatValue m d c)
    (hdata : ∀ c, 2 ≤ c → ¬(vol m R d).Mine (maxCluster m) n c → ∀ k < m.bpb.sectorsPerCluster,
      d' (clusterSector m c k) = d (clusterSector m c k)) : Others m R d d' n := by
  intro i x l hin hx hlx hl
  have hoff : ∀ c ∈ l, ¬(vol m R d).Mine (maxCluster m) n c := fun c =>
    ht.not_mine_other hin ⟨x, hx, hlx, hl⟩
  have hl' : Chain (fatValue m d') (maxCluster m) (firstCluster x) l :=
    hl.congr fun c hc => hfat c (hoff c hc)
  exact ⟨hl', contents_congr hl hl' fun c hc => hdata c (hl.two_le hc) (hoff c hc)⟩

/-- An edit of a slot changes no byte of a chain off the root directory. -/
theorem SlotEdit.contents_eq (g : Geometry m) {upd : Dirent → Dirent}
    (h : SlotEdit m R d₁ d' n upd) (h2R : ∀ c ∈ R, 2 ≤ c) {x : Dirent} {l : List Nat}
    (hl : Chain (fatValue m d₁) (maxCluster m) (firstCluster x) l) (hoff : l.Disjoint R) :
    Chain (fatValue m d') (maxCluster m) (firstCluster x) l ∧
      contents m d' x = contents m d₁ x := by
  have hl' : Chain (fatValue m d') (maxCluster m) (firstCluster x) l :=
    hl.congr fun c _ => congrFun (fatValue_congr g fun _ => h.low) c
  exact ⟨hl', contents_congr hl hl' fun c hc _ hk => h.other h2R (hl.two_le hc)
    (fun hcR => hoff hc hcR) hk⟩

theorem Others.slotEdit (g : Geometry m) {upd : Dirent → Dirent}
    (ht : (vol m R d).Tidy (maxCluster m) m.bpb.rootCluster R) (h : Others m R d d₁ n)
    (hse : SlotEdit m R d₁ d' n upd) : Others m R d d' n := by
  intro i x l hin hx hlx hl
  obtain ⟨hl₁, hc₁⟩ := h i x l hin hx hlx hl
  have hoff := ht.off_root i l ⟨x, hx, hlx, hl⟩
  obtain ⟨hl', hc'⟩ := hse.contents_eq g (fun _ => ht.root.two_le) hl₁ hoff
  exact ⟨hl', hc'.trans hc₁⟩

/-- An edit of slot `n`, once clusters of that slot alone have changed. -/
theorem SlotEdit.replaced (g : Geometry m) {upd : Dirent → Dirent}
    (ht : (vol m R d).Tidy (maxCluster m) m.bpb.rootCluster R) (h : Others m R d d₁ n)
    (hdir : (vol m R d₁).dir = (vol m R d).dir) (he : (vol m R d).dir[n]? = some e)
    (hse : SlotEdit m R d₁ d' n upd) : Replaced m R d d' n e (upd e) := by
  refine ⟨he, ?_, h.slotEdit g ht hse⟩
  rw [hse.vol_eq g ht.root.walk.nodup (fun _ => ht.root.two_le) (hdir ▸ he), hdir]

namespace Replaced

variable (h : Replaced m R d d' n e e')

include h

theorem slot' : (vol m R d').dir[n]? = some e' := by
  rw [h.dir]
  exact List.getElem?_set_self (List.getElem?_eq_some_iff.1 h.slot).1

theorem other {i : Nat} (hi : i ≠ n) : (vol m R d').dir[i]? = (vol m R d).dir[i]? := by
  rw [h.dir]
  exact List.getElem?_set_ne (Ne.symm hi)

theorem wellFormed (hw : WellFormed m R d) (hc : Consistent m R d')
    (hslot : Live e' → ShortName e'.name ∧
      ∃ l, Chain (fatValue m d') (maxCluster m) (firstCluster e') l ∧
        e'.size ≤ l.length * bytesPerCluster m) : WellFormed m R d' := by
  refine ⟨hc, fun i x hx hl => ?_, fun i x hx hl => ?_⟩
  · by_cases hin : i = n
    · obtain rfl := Option.some.inj (h.slot'.symm.trans (hin ▸ hx))
      exact (hslot hl).1
    · exact hw.named i x (h.other hin ▸ hx) hl
  · by_cases hin : i = n
    · obtain rfl := Option.some.inj (h.slot'.symm.trans (hin ▸ hx))
      exact (hslot hl).2
    · have hx' := h.other hin ▸ hx
      obtain ⟨l, hl', hcov⟩ := hw.covered i x hx' hl
      exact ⟨l, (h.others i x l hin hx' hl hl').1, hcov⟩

theorem contents_other (hw : WellFormed m R d) {i : Nat} {x : Dirent} (hin : i ≠ n)
    (hx : (vol m R d).dir[i]? = some x) (hl : Live x) : contents m d' x = contents m d x := by
  obtain ⟨l, hch, -⟩ := hw.covered i x hx hl
  exact (h.others i x l hin hx hl hch).2

theorem files_eq (hw : WellFormed m R d) (hw' : WellFormed m R d') (name : List UInt8) :
    files m R d' name = if IsFile e' ∧ shortNameToString e'.name = name then some (contents m d' e')
      else if IsFile e ∧ shortNameToString e.name = name then none else files m R d name := by
  split
  · rename_i hnew
    exact (files_eq_some hw').2 ⟨n, e', h.slot', hnew.1, hnew.2, rfl⟩
  rename_i hnew
  split
  · rename_i hold
    refine Option.eq_none_iff_forall_ne_some.2 fun bytes hb => ?_
    obtain ⟨i, x, hx, hfx, hname, -⟩ := (files_eq_some hw').1 hb
    by_cases hin : i = n
    · obtain rfl := Option.some.inj (h.slot'.symm.trans (hin ▸ hx))
      exact hnew ⟨hfx, hname⟩
    · exact hin (hw.slot_unique (h.other hin ▸ hx) h.slot hfx.1 hold.1.1
        (hname.trans hold.2.symm))
  · rename_i hold
    refine Option.ext fun bytes => ?_
    rw [files_eq_some hw', files_eq_some hw]
    constructor
    · rintro ⟨i, x, hx, hfx, hname, hb⟩
      have hin : i ≠ n := by
        rintro rfl
        obtain rfl := Option.some.inj (h.slot'.symm.trans hx)
        exact hnew ⟨hfx, hname⟩
      have hx' := h.other hin ▸ hx
      exact ⟨i, x, hx', hfx, hname, h.contents_other hw hin hx' hfx.1 ▸ hb⟩
    · rintro ⟨i, x, hx, hfx, hname, hb⟩
      have hin : i ≠ n := by
        rintro rfl
        obtain rfl := Option.some.inj (h.slot.symm.trans hx)
        exact hold ⟨hfx, hname⟩
      exact ⟨i, x, (h.other hin).trans hx, hfx, hname,
        (h.contents_other hw hin hx hfx.1).trans hb⟩

/-- The entries under other names are listed as before. -/
theorem listing_filter (hw : WellFormed m R d) (names : List (List UInt8))
    (hold : Live e → shortNameToString e.name ∈ names)
    (hnew : Live e' → shortNameToString e'.name ∈ names) :
    (listing m R d').filter (fun v => decide (v.name ∉ names)) =
      (listing m R d).filter (fun v => decide (v.name ∉ names)) := by
  obtain ⟨before, after, heq, heq'⟩ := listing_slot h.slot h.dir fun i x hin hx hl =>
    h.contents_other hw hin hx hl
  have hgone : ∀ (d : Disk) (x : Dirent), (Live x → shortNameToString x.name ∈ names) →
      (if Live x then [fileView m d x] else []).filter (fun v => decide (v.name ∉ names)) = [] := by
    intro d x hx
    split
    · rename_i hl
      simp [fileView, hx hl]
    · rfl
  simp only [heq, heq', List.filter_append, hgone d e hold, hgone d' e' hnew]

end Replaced

/-! ## Files by their short names -/

theorem Entry.files_eq (h : WellFormed m R d) {sn : List UInt8} (he : Entry m R d sn n e)
    (hattr : e.attr &&& 0x10 = 0) : files m R d (shortNameToString sn) = some (contents m d e) :=
  (files_eq_some h).2 ⟨n, e, he.dir, ⟨he.live, hattr⟩, congrArg _ he.name, rfl⟩

theorem NoEntry.files_eq (h : WellFormed m R d) {nm sn : List UInt8}
    (hsn : makeShortNameChecked nm = some sn) (hno : NoEntry m R d sn) :
    files m R d (shortNameToString sn) = none := by
  refine Option.eq_none_iff_forall_ne_some.2 fun bytes hb => ?_
  obtain ⟨i, x, hx, hfx, hname, -⟩ := (files_eq_some h).1 hb
  exact hno i x hx hfx.1 ((h.named i x hx hfx.1).inj (shortName_of_checked hsn).1 hname)

/-- The entry behind a file of the map. -/
theorem entry_of_files (h : WellFormed m R d) {nm sn bytes : List UInt8}
    (hsn : makeShortNameChecked nm = some sn)
    (hf : files m R d (nm.map upperAscii) = some bytes) :
    ∃ n e, Entry m R d sn n e ∧ e.attr &&& 0x10 = 0 ∧ contents m d e = bytes := by
  obtain ⟨n, e, he, hfile, hname, rfl⟩ := (files_eq_some h).1 hf
  obtain ⟨hshort, hshown⟩ := shortName_of_checked hsn
  exact ⟨n, e, ⟨he, hfile.1, (h.named n e he hfile.1).inj hshort (hname.trans hshown.symm)⟩,
    hfile.2, rfl⟩

/-- `d'` is `d` with `v` as what the map has for `name`; the other files are as they were. -/
structure Sets (m : Mount) (R : List Nat) (d d' : Disk) (name : List UInt8)
    (v : Option (List UInt8)) : Prop where
  wellFormed : WellFormed m R d'
  files : files m R d' = Function.update (files m R d) name v
  others : (listing m R d').filter (fun f => decide (f.name ∉ [name])) =
    (listing m R d).filter (fun f => decide (f.name ∉ [name]))

/-- `d'` is `d` with the file `old` under the name `new`, which none had. -/
structure Renames (m : Mount) (R : List Nat) (d d' : Disk) (old new : List UInt8) : Prop where
  wellFormed : WellFormed m R d'
  isSome : (files m R d old).isSome
  free : files m R d new = none
  files : files m R d' =
    Function.update (Function.update (files m R d) old none) new (files m R d old)
  others : (listing m R d').filter (fun f => decide (f.name ∉ [old, new])) =
    (listing m R d).filter (fun f => decide (f.name ∉ [old, new]))

/-- One slot of a file, or to be a file's, changed under one name. -/
theorem Replaced.sets (h : Replaced m R d d' n e e') (hw : WellFormed m R d)
    (hw' : WellFormed m R d') (name : List UInt8)
    (hold : Live e → IsFile e ∧ shortNameToString e.name = name)
    (hnew : Live e' → IsFile e' ∧ shortNameToString e'.name = name) (hone : Live e ∨ Live e') :
    Sets m R d d' name (if Live e' then some (contents m d' e') else none) := by
  refine ⟨hw', funext fun x => ?_, h.listing_filter hw [name] (fun hl => ?_) fun hl => ?_⟩
  · rw [h.files_eq hw hw', Function.update_apply]
    by_cases hx : x = name
    · subst hx
      by_cases hl : Live e'
      · rw [if_pos (hnew hl), if_pos rfl, if_pos hl]
      · rw [if_neg fun hf => hl hf.1.1, if_pos (hold (hone.resolve_right hl)), if_pos rfl,
          if_neg hl]
    · rw [if_neg fun hf => hx (hf.2.symm.trans (hnew hf.1.1).2),
        if_neg fun hf => hx (hf.2.symm.trans (hold hf.1.1).2), if_neg hx]
  · simp [(hold hl).2]
  · simp [(hnew hl).2]

end MinervaOS.Fat32
