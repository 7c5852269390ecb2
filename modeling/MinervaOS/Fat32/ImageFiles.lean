import MinervaOS.Fat32.Image
import MinervaOS.Fat32.Refinement
import Mathlib.Data.Bool.AllAny

/-!
# The driver on the image

The image holds a well-formed volume: `fs_init` accepts it, its root directory lists the files in
the order of the list, and each file reads back as it was laid out.
-/

namespace MinervaOS.Fat32.Image

open Prog

variable {files : List ImageFile} {image : List UInt8} {b : Building}

/-- The disk that holds an image. -/
def diskOf (image : List UInt8) : Disk := fun lba i => if i < 512 then bytesOf image (512 * lba + i) else 0

/-! Widths of the fields that have the same values as in `tiny`. -/

theorem bytesPerSector_lt : 512 < 65536 := by decide

theorem one_lt_width : 1 < 256 := by decide

theorem rootCluster_lt : 2 < 4294967296 := by decide

/-- The statics after `fs_init`. -/
def mount : Mount where
  bpb :=
    { bytesPerSector := 512, sectorsPerCluster := 1, reservedSectorCount := 32, fatCount := 1
      totalSectors16 := 0, totalSectors32 := 4096, fatSize32 := 32, rootCluster := 2
      bytesPerSector_lt := bytesPerSector_lt, sectorsPerCluster_lt := one_lt_width
      reservedSectorCount_lt := by decide, fatCount_lt := one_lt_width
      totalSectors16_lt := by decide, totalSectors32_lt := by decide
      fatSize32_lt := by decide, rootCluster_lt := rootCluster_lt }
  fatStartLba := 32
  dataStartLba := 64
  mounted := true

theorem geometry : Geometry mount where
  mounted := rfl
  sectors_pos := by decide
  fatCount_pos := by decide
  dataStart := by decide
  dataStart_le := by decide
  total_le := by decide
  fat_room := by decide

theorem maxCluster_mount : maxCluster mount = lastCluster := by decide

/-! ## Mounting -/

theorem header_accepted : acceptsBpb (diskOf header 0) = true ∧
    mountOf (bpbOf (diskOf header 0)) = mount := by
  have h : acceptsBpb (diskOf header 0) = true ∧ rd16 (diskOf header 0) 11 = 512 ∧
      (diskOf header 0 13).toNat = 1 ∧ rd16 (diskOf header 0) 14 = 32 ∧
      (diskOf header 0 16).toNat = 1 ∧ rd16 (diskOf header 0) 19 = 0 ∧
      rd32 (diskOf header 0) 32 = 4096 ∧ rd32 (diskOf header 0) 36 = 32 ∧
      rd32 (diskOf header 0) 44 = 2 := by
    decide +kernel
  obtain ⟨hok, h11, h13, h14, h16, h19, h32, h36, h44⟩ := h
  refine ⟨hok, ?_⟩
  simp only [mountOf, bpbOf, h11, h13, h14, h16, h19, h32, h36, h44]
  rfl

theorem Built.bootSector (hb : Built files b)
    (himage : bytesOf image = copyAt (bytesOf b.image) 16384 16384 (bytesOf b.fat)) :
    diskOf image 0 = diskOf header 0 := by
  funext i
  simp only [diskOf, Nat.mul_zero, Nat.zero_add]
  split
  · rw [himage]
    unfold copyAt
    rw [if_neg (by omega)]
    exact hb.head i (by omega)
  · rfl

/-- The image is accepted. -/
theorem fsInit_image (hi : Imaged files image) {s : Fs} (hd : s.disk = diskOf image)
    (hrel : s.faults = []) : Total fsInit s fun r s' => Reads s s' ∧ r = some mount := by
  obtain ⟨b, hb, -, himage⟩ := hi
  have hboot := hb.bootSector himage
  refine (total_bind ..).2 ((ataReadSector_spec (by decide) s).mono ?_)
  rintro ok s₁ ⟨hr, hsec, hno⟩
  cases ok with
  | false => exact absurd hrel (hno rfl).not_reliable
  | true =>
    have hsec₁ : s₁.sector = diskOf header 0 := by rw [hsec rfl, hd, hboot]
    simp only [Bool.not_true, Bool.false_eq_true, if_false, total_bind, total_get, hsec₁,
      header_accepted.1, header_accepted.2, total_pure]
    exact ⟨hr, trivial⟩

/-! ## The volume -/

/-- The FAT of the volume is the one that was built. -/
theorem fatValue_image (himage : bytesOf image = copyAt (bytesOf b.image) 16384 16384 (bytesOf b.fat))
    {c : Nat} (hc : c < lastCluster) :
    fatValue mount (diskOf image) c = fatAt b.fat c % 268435456 := by
  have hlast : lastCluster = 4034 := rfl
  unfold fatValue
  rw [if_pos (by rwa [maxCluster_mount])]
  refine congrArg (· % 268435456) (rd32_congr fun k hk => ?_)
  have hsector : fatSector mount 0 c = 32 + c / 128 := by
    show 32 + 0 * 32 + c / 128 = 32 + c / 128
    omega
  unfold diskOf
  rw [if_pos (by omega), himage, hsector]
  unfold copyAt
  rw [if_pos (by omega)]
  exact congrArg (bytesOf b.fat) (by omega)

theorem rootDir_image (himage : bytesOf image = copyAt (bytesOf b.image) 16384 16384 (bytesOf b.fat)) :
    (vol mount [2] (diskOf image)).dir =
      (List.range 16).map fun i => dirent (bytesOf b.image) (slotOf i) := by
  have hslots : slots mount [2] = (List.range 16).map fun i => (64, i) := rfl
  show (slots mount [2]).map (slotEntry (diskOf image)) = _
  rw [hslots, List.map_map]
  refine List.map_congr_left fun i hi => funext fun j => ?_
  have hi' := List.mem_range.1 hi
  simp only [Function.comp_apply, slotEntry, dirent, diskOf, slotOf]
  split
  · rw [if_pos (by omega), himage]
    unfold copyAt
    rw [if_neg (by omega)]
    exact congrArg (bytesOf b.image) (by omega)
  · rfl

theorem clusterByte_image
    (himage : bytesOf image = copyAt (bytesOf b.image) 16384 16384 (bytesOf b.fat)) {c i : Nat}
    (h2 : 2 ≤ c) (hi : i < 512) :
    clusterByte mount (diskOf image) c i = bytesOf b.image (clusterOffset c + i) := by
  have hsector : clusterSector mount c (i / 512) = 62 + c := by
    show 64 + (c - 2) * 1 + i / 512 = 62 + c
    omega
  unfold clusterByte diskOf
  rw [if_pos (by omega), hsector, himage]
  unfold copyAt clusterOffset
  rw [if_neg (by omega)]
  exact congrArg (bytesOf b.image) (by omega)

/-! ## Chains -/

/-- A run of clusters that each link to the next, up to the last. -/
theorem chain_range {fat : Nat → Nat} {hi first n : Nat} (h2 : 2 ≤ first) (hn : 1 ≤ n)
    (hhi : first + n ≤ hi) (heoc : hi ≤ fat32Eoc)
    (hfat : ∀ x, first ≤ x → x < first + n →
      fat x = if x + 1 < first + n then x + 1 else fat32EocMark) :
    Chain fat hi first (List.range' first n) := by
  have hmark : fat32Eoc ≤ fat32EocMark := by decide
  have hwalk : ∀ k x, first ≤ x → x + (k + 1) = first + n →
      Walk fat ChainEnd x (List.range' x (k + 1)) := by
    intro k
    induction k with
    | zero =>
      intro x hx hend
      refine .cons (by unfold ChainEnd; omega) (.nil (.inr ?_))
      rw [hfat x hx (by omega), if_neg (by omega)]
      exact hmark
    | succ k ih =>
      intro x hx hend
      rw [List.range'_succ]
      refine .cons (by unfold ChainEnd; omega) ?_
      rw [hfat x hx (by omega), if_pos (by omega)]
      exact ih (x + 1) (by omega) (by omega)
  obtain ⟨k, rfl⟩ : ∃ k, n = k + 1 := ⟨n - 1, by omega⟩
  refine ⟨hwalk k first (Nat.le_refl _) rfl, fun c hc => ?_, fun c hc => ?_, fun h => by simp at h⟩
  · have := List.mem_range'_1.1 hc
    omega
  · obtain ⟨hc, hc'⟩ := List.mem_range'_1.1 hc
    rw [hfat c hc hc']
    split
    · omega
    · decide

/-! ## Names -/

/-- An 8.3 name in upper case, of printable characters. -/
def UpperName (name : List UInt8) : Prop :=
  ∃ base ext, base ≠ [] ∧ base.length ≤ 8 ∧ ext.length ≤ 3 ∧
    (∀ c ∈ base ++ ext, 0x21 ≤ c ∧ c ≤ 0x7E ∧ c ≠ dot ∧ upperAscii c = c) ∧
    name = base ++ if ext = [] then [] else dot :: ext

theorem padUpper_upper {n : Nat} {s : List UInt8} (h : ∀ c ∈ s, upperAscii c = c) :
    padUpper n s = s ++ List.replicate (n - s.length) space := by
  unfold padUpper
  rw [List.map_congr_left h, List.map_id']

/-- The two ways to make a short name agree, and it is listed as the name. -/
theorem shortName_upper {name : List UInt8} (h : UpperName name) :
    makeShortName name = shortName name ∧ ShortName (shortName name) ∧
      shortNameToString (shortName name) = name ∧ (shortName name).getD 0 0 ≠ 0x00 ∧
        (shortName name).getD 0 0 ≠ 0xE5 := by
  obtain ⟨base, ext, hne, hb, he, hc, hname⟩ := h
  have hdot : ∀ c ∈ base, (c != dot) = true := fun c hm => by
    simpa using (hc c (List.mem_append_left ext hm)).2.2.1
  have htail : (if ext = [] then [] else dot :: ext).takeWhile (· != dot) = [] := by
    split <;> simp
  have hbase : name.takeWhile (· != dot) = base := by
    rw [hname, List.takeWhile_append_of_pos hdot, htail, List.append_nil]
  have hdrop : name.dropWhile (· != dot) = if ext = [] then [] else dot :: ext := by
    rw [hname, List.dropWhile_append_of_pos hdot]
    split <;> simp
  have hext : (if ext = [] then [] else dot :: ext).tail = ext := by
    split
    · rename_i h0
      exact h0.symm
    · rfl
  have hup : ∀ s : List UInt8, (∀ c ∈ s, c ∈ base ++ ext) → ∀ c ∈ s, upperAscii c = c :=
    fun s hs c hm => (hc c (hs c hm)).2.2.2
  have hpad8 := padUpper_upper (n := 8) (hup base fun c hm => List.mem_append_left ext hm)
  have hpad3 := padUpper_upper (n := 3) (hup ext fun c hm => List.mem_append_right base hm)
  have hlen8 : (padUpper 8 base).length = 8 := length_padUpper hb
  have hlen3 : (padUpper 3 ext).length = 3 := length_padUpper he
  have hshort : shortName name = padUpper 8 base ++ padUpper 3 ext := by
    simp only [shortName, hbase, hdrop, hext]
    rw [List.take_of_length_le (by omega), List.take_of_length_le (by omega)]
  have hchars : ∀ c ∈ base ++ ext, c ≠ space ∧ c ≠ dot ∧ c ≠ 0 := by
    intro c hm
    obtain ⟨hlo, -, hnd, -⟩ := hc c hm
    refine ⟨?_, hnd, ?_⟩ <;> rintro rfl <;> exact absurd hlo (by decide)
  have hmake : makeShortName name = padUpper 8 base ++ padUpper 3 ext := by
    have hrest : name.drop base.length = if ext = [] then [] else dot :: ext := by
      rw [hname, List.drop_left' rfl]
    unfold makeShortName
    simp only [hbase, List.take_of_length_le hb, hrest]
    by_cases h0 : ext = []
    · simp [h0]
    · simp [h0, List.take_of_length_le he]
  rw [hshort]
  refine ⟨hmake, ⟨base, ext, hb, he, hchars, by rw [hpad8, hpad3]⟩, ?_, ?_⟩
  · rw [hpad8, hpad3, shortNameToString_padded hb hchars, hname]
  · cases base with
    | nil => exact absurd rfl hne
    | cons c base =>
      obtain ⟨hlo, hhi, -, -⟩ := hc c (by simp)
      rw [hpad8]
      refine ⟨?_, ?_⟩ <;> intro h0 <;> rw [List.cons_append, List.cons_append] at h0
      · obtain rfl : c = 0x00 := h0
        exact absurd hlo (by decide)
      · obtain rfl : c = 0xE5 := h0
        exact absurd hhi (by decide)

/-! ## Entries -/

section Entry

variable {f : ImageFile} {first : Nat}

theorem entryOf_apply_zero : entryOf f first 0 = (shortName f.name).getD 0 0 := by
  unfold entryOf
  rw [Dirent.withSize_apply _ _ (by omega), Dirent.withCluster_apply _ _ (by omega)]
  rfl

theorem attr_entryOf : (entryOf f first).attr = 0x20 := by
  simp only [entryOf, Dirent.attr_withSize, Dirent.attr_withCluster]
  rfl

theorem name_entryOf : (entryOf f first).name = shortName f.name := by
  simp only [entryOf, Dirent.name_withSize, Dirent.name_withCluster]
  exact Dirent.name_newDirent (length_shortName _)

theorem firstCluster_entryOf (h : first < 4294967296) : firstCluster (entryOf f first) = first := by
  rw [entryOf, Dirent.firstCluster_withSize, Dirent.firstCluster_withCluster _ h]

theorem size_entryOf (h : f.data.length < 4294967296) : (entryOf f first).size = f.data.length := by
  rw [entryOf, Dirent.size_withSize, Nat.mod_eq_of_lt h]

theorem live_entryOf (h : UpperName f.name) : Live (entryOf f first) := by
  obtain ⟨-, -, -, h0, he5⟩ := shortName_upper h
  simp only [Live, validFileEntry, entryOf_apply_zero, attr_entryOf, Bool.and_eq_true,
    Bool.not_eq_true', Bool.or_eq_false_iff, beq_eq_false_iff_ne]
  exact ⟨⟨⟨h0, he5⟩, by decide⟩, by decide⟩

end Entry

/-! ## A well-formed volume -/

/-- What the list of files has to be for the image. -/
structure Fits (files : List ImageFile) : Prop where
  length_le : files.length ≤ 16
  upper : ∀ f ∈ files, UpperName f.name
  nodup : (files.map (·.name)).Nodup
  room : (files.map fun f => clusterCount f.data).sum ≤ 4031

/-- A volume that holds the files: where each is, and that there is nothing else. -/
structure Holds (files : List ImageFile) (d : Disk) : Prop where
  dir : ∀ i : Nat, (vol mount [2] d).dir[i]? =
    if i < 16 then some (match files[i]? with
      | some f => entryOf f (endOf (files.take i))
      | none => fun _ => 0) else none
  root : fatValue mount d 2 = fat32EocMark
  fat : ∀ (i : Nat) (f : ImageFile), files[i]? = some f → ∀ x, endOf (files.take i) ≤ x →
    x < endOf (files.take i) + clusterCount f.data → fatValue mount d x =
      if x + 1 < endOf (files.take i) + clusterCount f.data then x + 1 else fat32EocMark
  free : ∀ x, endOf files ≤ x → x < lastCluster → fatValue mount d x = 0
  bytes : ∀ (i : Nat) (f : ImageFile), files[i]? = some f → ∀ j < f.data.length,
    clusterByte mount d (endOf (files.take i) + j / 512) (j % 512) = f.data.getD j 0

theorem Fits.endOf_le (h : Fits files) : endOf files ≤ lastCluster := by
  have := h.room
  unfold endOf lastCluster
  omega

theorem three_le_endOf (files : List ImageFile) : 3 ≤ endOf files := Nat.le_add_right ..

theorem holds_image (hf : Fits files) (hi : Imaged files image) : Holds files (diskOf image) := by
  obtain ⟨b, hb, -, himage⟩ := hi
  have hlast : lastCluster = 4034 := rfl
  have hend := hf.endOf_le
  refine ⟨fun i => ?_, ?_, fun i f hi x hx hx' => ?_, fun x hx hx' => ?_, fun i f hi j hj => ?_⟩
  · rw [rootDir_image himage, List.getElem?_map]
    by_cases h16 : i < 16
    · rw [List.getElem?_range h16, if_pos h16, Option.map_some]
      cases hfile : files[i]? with
      | some f => rw [(hb.placed i f hfile).entry]
      | none => rw [hb.blank i (List.getElem?_eq_none_iff.1 hfile) h16]
    · rw [List.getElem?_eq_none (by simpa using h16), if_neg h16, Option.map_none]
  · rw [fatValue_image himage (by decide)]
    have hroot := hb.root
    rw [show (2 : Nat) = rootCluster from rfl, hroot]
    rfl
  · have hbefore := endOf_take_add hi
    rw [fatValue_image himage (by omega), (hb.placed i f hi).fat x hx hx']
    split
    · exact Nat.mod_eq_of_lt (by omega)
    · rfl
  · rw [fatValue_image himage hx', hb.free x hx hx']
  · have h3 := three_le_endOf (files.take i)
    rw [clusterByte_image himage (by omega) (Nat.mod_lt _ (by decide)),
      ← (hb.placed i f hi).bytes j hj]
    refine congrArg (bytesOf b.image) ?_
    unfold clusterOffset
    omega

section Holds

variable {d : Disk} (hf : Fits files) (hh : Holds files d)

include hf

theorem Fits.length_data_lt {i : Nat} {f : ImageFile} (h : files[i]? = some f) :
    f.data.length < 4294967296 := by
  have h1 := hf.endOf_le
  have h2 := endOf_take_add h
  have h3 := length_le_clusterCount f.data
  have hlast : lastCluster = 4034 := rfl
  omega

theorem Fits.upper_of {i : Nat} {f : ImageFile} (h : files[i]? = some f) : UpperName f.name :=
  hf.upper f (List.mem_of_getElem? h)

theorem Fits.index_lt {i : Nat} {f : ImageFile} (h : files[i]? = some f) : i < 16 :=
  Nat.lt_of_lt_of_le (List.getElem?_eq_some_iff.1 h).1 hf.length_le

theorem Fits.name_inj {i j : Nat} {f g : ImageFile} (hi : files[i]? = some f)
    (hj : files[j]? = some g) (hname : f.name = g.name) : i = j := by
  have hi' : (files.map (·.name))[i]? = some f.name := by rw [List.getElem?_map, hi]; rfl
  have hj' : (files.map (·.name))[j]? = some f.name := by rw [List.getElem?_map, hj, hname]; rfl
  exact (List.getElem?_inj (List.getElem?_eq_some_iff.1 hi').1 hf.nodup).1 (hi'.trans hj'.symm)

include hh

theorem Holds.entry {i : Nat} {f : ImageFile} (h : files[i]? = some f) :
    (vol mount [2] d).dir[i]? = some (entryOf f (endOf (files.take i))) := by
  rw [hh.dir i, if_pos (hf.index_lt h), h]

omit hf in
/-- A slot that does not hold a file is blank. -/
theorem Holds.blank {i : Nat} {e : Dirent} (he : (vol mount [2] d).dir[i]? = some e)
    (h : files[i]? = none) : e = fun _ => 0 := by
  rw [hh.dir i, h] at he
  split at he
  · exact (Option.some.inj he).symm
  · cases he

omit hf in
theorem Holds.file_of_live {i : Nat} {e : Dirent} (he : (vol mount [2] d).dir[i]? = some e)
    (hl : Live e) : ∃ f, files[i]? = some f ∧ e = entryOf f (endOf (files.take i)) := by
  cases h : files[i]? with
  | none =>
    rw [hh.blank he h] at hl
    simp [Live, validFileEntry] at hl
  | some f =>
    rw [hh.dir i, h] at he
    split at he
    · exact ⟨f, rfl, (Option.some.inj he).symm⟩
    · cases he

theorem Holds.chain {i : Nat} {f : ImageFile} (h : files[i]? = some f) :
    Chain (fatValue mount d) (maxCluster mount)
      (firstCluster (entryOf f (endOf (files.take i))))
      (List.range' (endOf (files.take i)) (clusterCount f.data)) := by
  have h1 := hf.endOf_le
  have h2 := endOf_take_add h
  have h3 := three_le_endOf (files.take i)
  have hlast : lastCluster = 4034 := rfl
  rw [firstCluster_entryOf (by omega), maxCluster_mount]
  exact chain_range (by omega) (clusterCount_pos _) (by omega) (by decide) (hh.fat i f h)

theorem Holds.owns {i : Nat} {l : List Nat}
    (h : (vol mount [2] d).Owns (maxCluster mount) i l) : ∃ f, files[i]? = some f ∧
      l = List.range' (endOf (files.take i)) (clusterCount f.data) := by
  obtain ⟨e, he, hl, hc⟩ := h
  obtain ⟨f, hfile, rfl⟩ := hh.file_of_live he hl
  exact ⟨f, hfile, hc.det (hh.chain hf hfile)⟩

omit hf hh in
/-- The clusters of an earlier file are before those of a later one. -/
theorem endOf_take_le {i j : Nat} {f : ImageFile} (hij : i < j) (h : files[i]? = some f) :
    endOf (files.take i) + clusterCount f.data ≤ endOf (files.take j) := by
  have htake : (files.take j)[i]? = some f := by rw [List.getElem?_take_of_lt hij, h]
  have hle := endOf_take_add htake
  rwa [List.take_take, Nat.min_eq_left (Nat.le_of_lt hij)] at hle

omit hf hh in
/-- Every cluster up to the last in use is a file's. -/
theorem exists_owner : ∀ (files : List ImageFile) {c : Nat}, 3 ≤ c → c < endOf files →
    ∃ (i : Nat) (f : ImageFile), files[i]? = some f ∧ endOf (files.take i) ≤ c ∧
      c < endOf (files.take i) + clusterCount f.data := by
  intro files
  induction hn : files.length generalizing files with
  | zero =>
    intro c h3 hc
    rw [List.eq_nil_of_length_eq_zero hn] at hc
    exact absurd hc (by show ¬c < 3; omega)
  | succ n ih =>
    intro c h3 hc
    have hlast : files[n]? = some files[n] := List.getElem?_eq_getElem (by omega)
    by_cases hbefore : c < endOf (files.take n)
    · obtain ⟨i, f, hi, hle, hlt⟩ := ih (files.take n) (by rw [List.length_take]; omega) h3 hbefore
      have hin : i < n := by
        by_contra hge
        rw [List.getElem?_eq_none (by rw [List.length_take]; omega)] at hi
        cases hi
      rw [List.getElem?_take_of_lt hin] at hi
      rw [List.take_take, Nat.min_eq_left (by omega)] at hle hlt
      exact ⟨i, f, hi, hle, hlt⟩
    · have hall : endOf files = endOf (files.take n) + clusterCount files[n].data := by
        have happ := endOf_append (files.take n) [files[n]]
        rw [List.take_append_getElem, ← hn, List.take_length] at happ
        exact happ
      exact ⟨n, files[n], hlast, by omega, by omega⟩

theorem Holds.consistent : Consistent mount [2] d := by
  have hlast : lastCluster = 4034 := rfl
  have hmax := maxCluster_mount
  have hroot : fat32Eoc ≤ fatValue mount d 2 := by
    rw [hh.root]
    decide
  refine ⟨?_, ⟨.single (by decide) (by decide) (by decide) hroot, by simp, ?_, ?_, ?_, ?_⟩, ?_, ?_⟩
  · -- there is one FAT
    intro j hj i _
    obtain rfl : j = 0 := Nat.lt_one_iff.1 hj
    rw [Nat.zero_mul, Nat.add_zero]
  · intro i j e e' hij he he' h0 k
    have hnone : files[j]? = none := by
      cases hi : files[i]? with
      | none =>
        have := List.getElem?_eq_none_iff.1 hi
        exact List.getElem?_eq_none (by omega)
      | some f =>
        obtain rfl := Option.some.inj ((hh.entry hf hi).symm.trans he)
        rw [entryOf_apply_zero] at h0
        exact absurd h0 (shortName_upper (hf.upper_of hi)).2.2.2.1
    rw [hh.blank he' hnone]
  · intro i e he hl
    obtain ⟨f, hfile, rfl⟩ := hh.file_of_live he hl
    exact ⟨_, hh.chain hf hfile⟩
  · intro i j l l' hij hl hl' c hc hc'
    obtain ⟨f, hi, rfl⟩ := hh.owns hf hl
    obtain ⟨g, hj, rfl⟩ := hh.owns hf hl'
    have h1 := List.mem_range'_1.1 hc
    have h2 := List.mem_range'_1.1 hc'
    rcases Nat.lt_or_gt_of_ne hij with hlt | hgt
    · have := endOf_take_le hlt hi
      omega
    · have := endOf_take_le hgt hj
      omega
  · intro i l hl c hc hc'
    obtain ⟨f, hi, rfl⟩ := hh.owns hf hl
    have h1 := List.mem_range'_1.1 hc
    have h3 := three_le_endOf (files.take i)
    have h2 : c = 2 := by simpa using hc'
    omega
  · intro i j e e' hij he he' hl hl' hname
    obtain ⟨f, hi, rfl⟩ := hh.file_of_live he hl
    obtain ⟨g, hj, rfl⟩ := hh.file_of_live he' hl'
    rw [name_entryOf, name_entryOf] at hname
    have h1 := (shortName_upper (hf.upper_of hi)).2.2.1
    have h2 := (shortName_upper (hf.upper_of hj)).2.2.1
    exact hij (hf.name_inj hi hj (by rw [← h1, ← h2, hname]))
  · intro c h2 hc hne
    by_cases hc2 : c = 2
    · exact .inl (by simp [hc2])
    by_cases hend : c < endOf files
    · obtain ⟨i, f, hi, hle, hlt⟩ := exists_owner files (by omega) hend
      exact .inr ⟨i, _, ⟨_, hh.entry hf hi, live_entryOf (hf.upper_of hi), hh.chain hf hi⟩,
        List.mem_range'_1.2 ⟨hle, hlt⟩⟩
    · exact absurd (hh.free c (by omega) (by omega)) hne

theorem Holds.wellFormed : WellFormed mount [2] d where
  consistent := hh.consistent hf
  named i e he hl := by
    obtain ⟨f, hi, rfl⟩ := hh.file_of_live he hl
    rw [name_entryOf]
    exact (shortName_upper (hf.upper_of hi)).2.1
  covered i e he hl := by
    obtain ⟨f, hi, rfl⟩ := hh.file_of_live he hl
    refine ⟨_, hh.chain hf hi, ?_⟩
    rw [size_entryOf (hf.length_data_lt hi), List.length_range']
    exact length_le_clusterCount f.data

/-- The bytes of a file's chain are the file. -/
theorem Holds.contents {i : Nat} {f : ImageFile} (h : files[i]? = some f) :
    contents mount d (entryOf f (endOf (files.take i))) = f.data := by
  have hsize : (entryOf f (endOf (files.take i))).size = f.data.length :=
    size_entryOf (hf.length_data_lt h)
  have hcount := length_le_clusterCount f.data
  have hbpc : bytesPerCluster mount = 512 := rfl
  rw [contents_eq geometry (hh.chain hf h)
    (by rw [hsize, List.length_range']; exact hcount), hsize]
  refine List.ext_getElem (by simp) fun j hj hj' => ?_
  rw [List.getElem_map, List.getElem_range, ← List.getD_eq_getElem f.data 0 hj',
    ← hh.bytes i f h j hj']
  unfold chainByte
  have hin : j / 512 < (List.range' (endOf (files.take i)) (clusterCount f.data)).length := by
    rw [List.length_range']
    omega
  rw [hbpc, List.getD_eq_getElem _ _ hin, List.getElem_range', Nat.one_mul]

/-- The listing is the list of files. -/
theorem Holds.listing : listing mount [2] d =
    files.map fun f => ⟨f.name, f.data.length, f.data⟩ := by
  have hlive : ((vol mount [2] d).dir.take files.length).filter (fun e => decide (Live e)) =
      (vol mount [2] d).dir.take files.length := by
    refine List.filter_eq_self.2 fun e he => ?_
    obtain ⟨i, hi⟩ := List.getElem?_of_mem he
    have hlt : i < files.length := by
      have := (List.getElem?_eq_some_iff.1 hi).1
      rw [List.length_take] at this
      omega
    have hfile : files[i]? = some files[i] := List.getElem?_eq_getElem hlt
    rw [List.getElem?_take_of_lt hlt, hh.entry hf hfile] at hi
    obtain rfl := Option.some.inj hi
    simpa using live_entryOf (hf.upper_of hfile)
  have hdead : ((vol mount [2] d).dir.drop files.length).filter (fun e => decide (Live e)) = [] := by
    refine List.filter_eq_nil_iff.2 fun e he => ?_
    obtain ⟨i, hi⟩ := List.getElem?_of_mem he
    rw [List.getElem?_drop] at hi
    rw [hh.blank hi (List.getElem?_eq_none (by omega))]
    simp [Live, validFileEntry]
  unfold Fat32.listing
  rw [← List.take_append_drop files.length (vol mount [2] d).dir, List.filter_append, hlive, hdead,
    List.append_nil]
  refine List.ext_getElem? fun i => ?_
  rw [List.getElem?_map, List.getElem?_map]
  by_cases hlt : i < files.length
  · have hfile : files[i]? = some files[i] := List.getElem?_eq_getElem hlt
    rw [List.getElem?_take_of_lt hlt, hh.entry hf hfile, hfile, Option.map_some, Option.map_some]
    unfold fileView
    rw [name_entryOf, (shortName_upper (hf.upper_of hfile)).2.2.1,
      size_entryOf (hf.length_data_lt hfile), hh.contents hf hfile]
  · rw [List.getElem?_eq_none (by rw [List.length_take]; omega),
      List.getElem?_eq_none (by omega)]
    rfl

end Holds

/-! ## The round trip -/

/-- The image of a list of files that fits is accepted, lists them in order, and gives their bytes
back, whatever was read before. -/
theorem main_round_trip (hf : Fits files) : Yields (main files) fun image =>
    ∀ sector, Total fsInit (Fs.start (diskOf image) sector []) fun r s =>
      r = some mount ∧ ∀ s', Reads s s' →
        Total (fsListRoot mount) s' (fun l s'' => Reads s' s'' ∧
          l = some (files.map fun f => (f.name, f.data.length))) ∧
        ∀ f ∈ files, ∀ (buffer : Nat → UInt8) (size : UInt32), f.data.length ≤ size.toNat →
          Total (fsReadFile mount (some f.name) (some buffer) size) s' fun r s'' =>
            Reads s' s'' ∧ r.1 = true ∧ r.2.1 = f.data.length ∧
              bufferBytes r.2.2 f.data.length = f.data := by
  refine (main_yields files hf.length_le hf.endOf_le).mono fun image hi sector => ?_
  refine (fsInit_image hi rfl rfl).mono ?_
  rintro r s ⟨hr, rfl⟩
  refine ⟨rfl, fun s' hr' => ?_⟩
  have hh := holds_image hf hi
  have hreads : Reads (Fs.start (diskOf image) sector []) s' := hr.reads hr'
  have hw := hh.wellFormed hf
  have hdisk : s'.disk = diskOf image := hreads.disk
  have hs := (hw.consistent.safe sector []).reads hreads
  have hwh := (hw.consistent.whole sector).reads hreads
  have hlist := hh.listing hf
  refine ⟨(fsListRoot_spec geometry hs.tidy hwh.reliable).mono ?_, fun f hmem buffer size hsize => ?_⟩
  · rintro l s'' ⟨hr'', rfl⟩
    refine ⟨hr'', ?_⟩
    rw [hdisk, hlist, List.map_map]
    rfl
  · obtain ⟨i, hi⟩ := List.getElem?_of_mem hmem
    have hsz : (entryOf f (endOf (files.take i))).size = f.data.length :=
      size_entryOf (hf.length_data_lt hi)
    have hentry : Entry mount [2] s'.disk (makeShortName f.name) i
        (entryOf f (endOf (files.take i))) := by
      rw [hdisk]
      refine ⟨hh.entry hf hi, live_entryOf (hf.upper_of hi), ?_⟩
      rw [name_entryOf, (shortName_upper (hf.upper_of hi)).1]
    refine (fsReadFile_spec geometry hs hwh hentry (by rw [attr_entryOf]; decide)
      (hdisk ▸ hh.chain hf hi) (by
        rw [hsz, List.length_range']
        exact length_le_clusterCount f.data) (some buffer) size (.inl rfl) (by omega)).mono ?_
    rintro r s'' ⟨hr'', hok, hlen, hbytes⟩
    rw [hsz] at hlen hbytes
    exact ⟨hr'', hok, hlen, by rw [hbytes, hdisk, hh.contents hf hi]⟩

/-- `("A.TXT", b"hi")` and `("B", b"")`. -/
def twoFiles : List ImageFile :=
  [⟨[0x41, 0x2E, 0x54, 0x58, 0x54], [0x68, 0x69]⟩, ⟨[0x42], []⟩]

theorem fits_twoFiles : Fits twoFiles where
  length_le := by decide
  upper f hf := by
    rcases List.mem_cons.1 hf with rfl | hf
    · exact ⟨[0x41], [0x54, 0x58, 0x54], by decide, by decide, by decide,
        List.all_iff_forall_prop.1 rfl, by decide⟩
    · obtain rfl := List.mem_singleton.1 hf
      exact ⟨[0x42], [], by decide, by decide, by decide,
        List.all_iff_forall_prop.1 rfl, by decide⟩
  nodup := by decide
  room := by decide

theorem twoFiles_round_trip : Yields (main twoFiles) fun image =>
    Total fsInit (Fs.start (diskOf image) (fun _ => 0) []) fun r s => r = some mount ∧
      Total (fsListRoot mount) s fun l _ =>
        l = some [([0x41, 0x2E, 0x54, 0x58, 0x54], 2), ([0x42], 0)] := by
  refine (main_round_trip fits_twoFiles).mono fun image h => (h fun _ => 0).mono ?_
  rintro r s ⟨rfl, hs⟩
  exact ⟨rfl, (hs s (.refl s)).1.mono fun _ _ hl => hl.2⟩

end MinervaOS.Fat32.Image
