import MinervaOS.Fat32.Runs

/-!
# What a refused call changes

On a reliable disk a call that returns 0 leaves the listing as it was, except `fs_write`: it creates
or truncates the file before `fs_write_file` looks at the size and for a free cluster. The theorem
says exactly on which calls that happens.
-/

namespace MinervaOS.Fat32

open Prog

variable {m : Mount} {R : List Nat} {s s' : Fs} {d d₁ d₂ : Disk}

/-! ## Listings of one slot's change -/

theorem length_listing (R : List Nat) (d : Disk) :
    (listing m R d).length = (vol m R d).dir.countP fun e => decide (Live e) := by
  rw [listing, List.length_map, List.countP_eq_length_filter]

/-- The listing gains an entry when a slot that was free is taken. -/
theorem length_listing_create {n : Nat} {e e' : Dirent} (he : (vol m R d).dir[n]? = some e)
    (hdir : (vol m R d₁).dir = (vol m R d).dir.set n e') (hdead : ¬Live e) (hl : Live e') :
    (listing m R d₁).length = (listing m R d).length + 1 := by
  rw [length_listing, length_listing, hdir, (dir_split he).2 e']
  conv_rhs => rw [(dir_split he).1]
  simp [hdead, hl]
  omega

theorem length_listing_set {n : Nat} {e e' : Dirent} (he : (vol m R d).dir[n]? = some e)
    (hdir : (vol m R d₁).dir = (vol m R d).dir.set n e') (hl : Live e) (hl' : Live e') :
    (listing m R d₁).length = (listing m R d).length := by
  rw [length_listing, length_listing, hdir, (dir_split he).2 e']
  conv_rhs => rw [(dir_split he).1]
  simp [hl, hl']

/-- A listing tells an entry's new size from its old one. -/
theorem listing_ne_of_size {n : Nat} {e e' : Dirent} (he : (vol m R d).dir[n]? = some e)
    (hdir : (vol m R d₁).dir = (vol m R d).dir.set n e') (hl : Live e) (hl' : Live e')
    (hsize : e'.size ≠ e.size) : listing m R d₁ ≠ listing m R d := by
  intro heq
  unfold listing at heq
  rw [hdir, (dir_split he).2 e'] at heq
  conv_rhs at heq => rw [(dir_split he).1]
  simp only [List.filter_append, List.filter_cons, hl, hl', decide_true, if_true, List.map_append,
    List.map_cons] at heq
  have hview := (List.cons.inj (List.append_inj heq (by simp)).2).1
  exact hsize (congrArg FileView.size hview)

theorem listing_set {n : Nat} {e e' : Dirent} (he : (vol m R d).dir[n]? = some e)
    (hdir : (vol m R d₁).dir = (vol m R d).dir.set n e') (hl : Live e) (hl' : Live e')
    (hview : fileView m d₁ e' = fileView m d e)
    (hothers : ∀ (i : Nat) (x : Dirent), i ≠ n → (vol m R d).dir[i]? = some x → Live x →
      contents m d₁ x = contents m d x) : listing m R d₁ = listing m R d := by
  obtain ⟨before, after, hold, hnew⟩ := listing_slot he hdir hothers
  rw [hold, hnew, if_pos hl, if_pos hl', hview]

/-! ## Truncating -/

section Truncate

variable {n : Nat} {e : Dirent} {c : List Nat} (g : Geometry m)
  (ht : (vol m R d).Tidy (maxCluster m) m.bpb.rootCluster R)
  (he : (vol m R d).dir[n]? = some e) (hl : Live e)
  (hch : Chain (fatValue m d) (maxCluster m) (firstCluster e) c)
  (hse : SlotEdit m R (freeAll m d c) d₁ n fun x => (x.withCluster 0).withSize 0)

include g ht he hch hse

theorem truncated_vol : vol m R d₁ = ⟨fun x => if x ∈ c then 0 else fatValue m d x,
    (vol m R d).dir.set n ((e.withCluster 0).withSize 0)⟩ := by
  have hfree := vol_freeAll g (R := R) c d hch.lt
  have hvol := hse.vol_eq g ht.root.walk.nodup (fun _ => ht.root.two_le)
    (e := e) (by rw [hfree]; exact he)
  rw [hvol, hfree]
  rfl

include hl

/-- A truncated entry that was empty looks as before, and so does everything else. -/
theorem listing_truncated (hsize : e.size = 0) : listing m R d₁ = listing m R d := by
  have hvol := truncated_vol g ht he hch hse
  refine listing_set he (by rw [hvol]) hl (live_written hl 0 0) ?_ fun i x hin hx hlx => ?_
  · simp [fileView, contents, hsize]
  · obtain ⟨l, hlx'⟩ := ht.chained i x hx hlx
    have hown : (vol m R d).Owns (maxCluster m) i l := ⟨x, hx, hlx, hlx'⟩
    have hoff : ∀ y ∈ l, y ∉ c := fun y hy hyc =>
      ht.apart i n l c hin hown ⟨e, he, hl, hch⟩ hy hyc
    refine contents_congr hlx' (hlx'.congr fun y hy => ?_) fun y hy k hk => ?_
    · have hval := congrFun (congrArg Vol.fat hvol) y
      exact hval.trans (if_neg (hoff y hy))
    · rw [hse.other (fun _ => ht.root.two_le) (hlx'.two_le hy)
        (fun hyR => ht.off_root i l hown hy hyR) hk, freeAll_of_ge g c d hch.lt]
      unfold clusterSector
      omega

theorem entry_truncated {sn : List UInt8} (hname : e.name = sn) :
    Entry m R d₁ sn n ((e.withCluster 0).withSize 0) := by
  refine ⟨?_, live_written hl 0 0, by simpa using hname⟩
  rw [truncated_vol g ht he hch hse]
  exact List.getElem?_set_self (List.getElem?_eq_some_iff.1 he).1

end Truncate

/-! ## Writing to an empty file -/

/-- `fs_write_file` on a file without a cluster refuses for want of room and for nothing else, and
then it changed nothing. -/
theorem WriteOut.on_empty {name : NameArg} {buffer : BufferArg} {size : UInt32} {ok : Bool}
    {nm sn : List UInt8} {n : Nat} {e : Dirent} (h : WriteOut m R name buffer size d ok d₁)
    (hx : (vol m R d).Exact (maxCluster m) R) (hnm : name = some nm)
    (hsn : makeShortNameChecked nm = some sn) (he : Entry m R d sn n e)
    (hattr : e.attr &&& 0x10 = 0) (hbuf : buffer.isSome ∨ size = 0) (hfirst : firstCluster e = 0)
    (hsize : e.size = 0) :
    (ok = false ↔ bytesPerCluster m < size.toNat ∨ size ≠ 0 ∧ NoFree m d) ∧
      (ok = false → d₁ = d) := by
  subst hnm
  have honly : ∀ {nm' sn' : List UInt8} {n' : Nat} {e' : Dirent}, some nm = some nm' →
      makeShortNameChecked nm' = some sn' → Entry m R d sn' n' e' → e' = e := by
    rintro _ sn' n' e' ⟨⟩ hsn' he'
    obtain rfl := Option.some.inj (hsn'.symm.trans hsn)
    exact (he.det hx he').2
  cases h with
  | empty _ _ _ _ hzero =>
    subst hzero
    simp
  | reuse hnm' hsn' he' _ _ _ hne =>
    rw [honly hnm' hsn' he'] at hne
    exact absurd hfirst hne
  | alloc _ _ _ _ hne hle _ _ h2 hlt h0 =>
    refine ⟨⟨by simp, ?_⟩, by simp⟩
    rintro (hbig | ⟨-, hfree⟩)
    · omega
    · exact absurd h0 (hfree _ h2 hlt)
  | refused hwhy =>
    refine ⟨⟨fun _ => ?_, fun _ => rfl⟩, fun _ => rfl⟩
    by_cases hle : size.toNat ≤ bytesPerCluster m
    · obtain ⟨hne, ⟨-, h⟩ | ⟨h, -⟩⟩ := hwhy nm sn n e rfl hsn he hattr hbuf hle
      · exact .inr ⟨hne, h.resolve_left fun hs => hs hsize⟩
      · exact absurd hfirst h
    · exact .inl (by omega)

/-! ## Refused calls -/

/-- `fs_write` creates the file, or truncates one that is not empty, and then has no room for what
it was to write. -/
inductive LateRefusal (m : Mount) (R : List Nat) (d : Disk) (name : NameArg) (buffer : BufferArg)
    (size flags : UInt32) : Prop
  | create {nm sn : List UInt8} : name = some nm → makeShortNameChecked nm = some sn →
      (buffer.isSome ∨ size = 0) → (flags &&& fsWriteAppend = 0 ∨ flags &&& fsWriteTruncate = 0) →
      flags &&& fsWriteCreate ≠ 0 → NoEntry m R d sn → ¬DirFull m R d →
      (bytesPerCluster m < size.toNat ∨ size ≠ 0 ∧ NoFree m d) →
      LateRefusal m R d name buffer size flags
  | truncate {nm sn : List UInt8} {n : Nat} {e : Dirent} : name = some nm →
      makeShortNameChecked nm = some sn → (buffer.isSome ∨ size = 0) →
      flags &&& fsWriteAppend = 0 → flags &&& fsWriteTruncate ≠ 0 → Entry m R d sn n e →
      e.attr &&& 0x10 = 0 → flags &&& fsWriteExcl = 0 → e.size ≠ 0 →
      (bytesPerCluster m < size.toNat ∨ size ≠ 0 ∧ firstCluster e = 0 ∧ NoFree m d) →
      LateRefusal m R d name buffer size flags

/-- The calls that refuse late. -/
def Call.LateRefusal (m : Mount) (R : List Nat) (d : Disk) : Call → Prop
  | .write name buffer size flags => Fat32.LateRefusal m R d name buffer size flags
  | _ => False

section Write

variable {name : NameArg} {buffer : BufferArg} {size flags : UInt32} {nm sn : List UInt8} {n : Nat}
  {e : Dirent} (g : Geometry m) (hs : Safe m R s) (hw : Whole m R s)

include g hs hw

/-- The last step of an `fs_write` that has an empty file to write to. -/
theorem write_empty_spec (hsn : makeShortNameChecked nm = some sn) (he : Entry m R s.disk sn n e)
    (hattr : e.attr &&& 0x10 = 0) (hbuf : buffer.isSome ∨ size = 0) (hfirst : firstCluster e = 0)
    (hsize : e.size = 0) : Total (fsWriteFile m (some nm) buffer size) s fun ok s' =>
      (ok = false ↔ bytesPerCluster m < size.toNat ∨ size ≠ 0 ∧ NoFree m s.disk) ∧
        (ok = false → s'.disk = s.disk) := by
  refine (fsWriteFile_spec g (some nm) buffer size hs).mono ?_
  rintro ok s' ⟨-, -, hwhole⟩
  exact (hwhole hw).2.on_empty hw.exact rfl hsn he hattr hbuf hfirst hsize

theorem write_refused_spec : Total (fsWriteFile m name buffer size) s fun ok s' =>
    ok = false → listing m R s'.disk = listing m R s.disk := by
  refine (fsWriteFile_spec g name buffer size hs).mono ?_
  rintro ok s' ⟨-, -, hwhole⟩ rfl
  have hout := (hwhole hw).2
  generalize s'.disk = d at hout
  cases hout with
  | refused _ => rfl

/-- Truncating, then writing: `s` is the state in which the truncation begins. -/
theorem truncate_write_spec (hsn : makeShortNameChecked nm = some sn)
    (he : Entry m R s.disk sn n e) (hattr : e.attr &&& 0x10 = 0)
    (hbuf : buffer.isSome ∨ size = 0) :
    Total (do
      if !(← fsTruncateFile m (some nm)) then return false
      if size = 0 then return true
      fsWriteFile m (some nm) buffer size) s fun ok s' =>
        (ok = false ↔ bytesPerCluster m < size.toNat ∨
          size ≠ 0 ∧ firstCluster e = 0 ∧ NoFree m s.disk) ∧
        (ok = false → (listing m R s'.disk).length = (listing m R s.disk).length ∧
          (listing m R s'.disk = listing m R s.disk ↔ e.size = 0)) := by
  refine (total_bind ..).2 ((fsTruncateFile_spec g (some nm) hs).mono ?_)
  rintro ok s₁ ⟨hext, hsafe, hwhole⟩
  obtain ⟨hw₁, hout⟩ := hwhole hw
  have hs₁ := hsafe (hext.not_torn hw.reliable)
  generalize hd₁ : s₁.disk = d₁ at hout
  cases hout with
  | refused hwhy => exact absurd hattr (hwhy nm sn n e rfl hsn he)
  | @done nm' sn' n' e' c _ hnm hsn' he' _ hch hse =>
  obtain rfl := Option.some.inj hnm
  obtain rfl := Option.some.inj (hsn'.symm.trans hsn)
  obtain ⟨rfl, rfl⟩ := he.det hw.exact he'
  have hent := entry_truncated g hs.tidy he.dir he.live hch hse he.name
  have hvol := truncated_vol g hs.tidy he.dir hch hse
  have hlive := live_written he.live 0 0
  have hlen : (listing m R d₁).length = (listing m R s.disk).length :=
    length_listing_set he.dir (by rw [hvol]) he.live hlive
  have hlist : listing m R d₁ = listing m R s.disk ↔ e'.size = 0 := by
    refine ⟨fun h => ?_, listing_truncated g hs.tidy he.dir he.live hch hse⟩
    by_contra hne
    exact listing_ne_of_size he.dir (by rw [hvol]) he.live hlive (by simpa using Ne.symm hne) h
  -- the clusters that are free now are the ones that were, and the file's own
  have hfree : NoFree m d₁ ↔ firstCluster e' = 0 ∧ NoFree m s.disk := by
    have hval : ∀ x, fatValue m d₁ x = if x ∈ c then 0 else fatValue m s.disk x := fun x =>
      congrFun (congrArg Vol.fat hvol) x
    constructor
    · intro h
      have hnil : c = [] := by
        cases c with
        | nil => rfl
        | cons x c =>
          have hx : x ∈ x :: c := List.mem_cons_self
          exact absurd (by rw [hval, if_pos hx]) (h x (hch.two_le hx) (hch.lt x hx))
      refine ⟨hch.empty hnil, fun x h2 hlt => ?_⟩
      have := h x h2 hlt
      rwa [hval, hnil, if_neg (by simp)] at this
    · rintro ⟨hfirst, h⟩ x h2 hlt
      rw [hfirst] at hch
      rw [hval, hch.eq_nil, if_neg (by simp)]
      exact h x h2 hlt
  refine (total_ite ..).2 ⟨fun h => by simp at h, fun _ => ?_⟩
  refine (total_ite ..).2 ⟨fun hzero => (total_pure ..).2 ?_, fun hzero => ?_⟩
  · subst hzero
    simp
  have hfc : firstCluster ((e'.withCluster 0).withSize 0) = 0 := by
    rw [Dirent.firstCluster_withSize, Dirent.firstCluster_withCluster _ (by omega)]
  refine (write_empty_spec g hs₁ hw₁ hsn (hd₁.symm ▸ hent) (by simpa using hattr) hbuf hfc
    (by simp)).mono ?_
  rintro ok s₂ ⟨hok, hsame⟩
  rw [hd₁] at hok hsame
  refine ⟨hok.trans (or_congr Iff.rfl (and_congr Iff.rfl hfree)), fun h => ?_⟩
  rw [hsame h]
  exact ⟨hlen, hlist⟩

end Write

theorem lateRefusal_found {name : NameArg} {buffer : BufferArg} {size flags : UInt32}
    {nm sn : List UInt8} {n : Nat} {e : Dirent} (hx : (vol m R d).Exact (maxCluster m) R)
    (hnm : name = some nm) (hsn : makeShortNameChecked nm = some sn)
    (hbuf : buffer.isSome ∨ size = 0)
    (hone : flags &&& fsWriteAppend = 0 ∨ flags &&& fsWriteTruncate = 0) (he : Entry m R d sn n e)
    (hattr : e.attr &&& 0x10 = 0) (hexcl : flags &&& fsWriteExcl = 0) :
    LateRefusal m R d name buffer size flags ↔ flags &&& fsWriteTruncate ≠ 0 ∧ e.size ≠ 0 ∧
      (bytesPerCluster m < size.toNat ∨ size ≠ 0 ∧ firstCluster e = 0 ∧ NoFree m d) := by
  subst hnm
  constructor
  · rintro (⟨⟨⟩, hsn', -, -, -, hno, -⟩ | ⟨⟨⟩, hsn', -, -, htr, he', -, -, hsize, h⟩)
    · obtain rfl := Option.some.inj (hsn'.symm.trans hsn)
      exact absurd he.name (hno n e he.dir he.live)
    · obtain rfl := Option.some.inj (hsn'.symm.trans hsn)
      obtain ⟨-, rfl⟩ := he.det hx he'
      exact ⟨htr, hsize, h⟩
  · rintro ⟨htr, hsize, h⟩
    exact .truncate rfl hsn hbuf (hone.resolve_right htr) htr he hattr hexcl hsize h

theorem lateRefusal_created {name : NameArg} {buffer : BufferArg} {size flags : UInt32}
    {nm sn : List UInt8} {n : Nat} {e : Dirent} (hnm : name = some nm)
    (hsn : makeShortNameChecked nm = some sn) (hbuf : buffer.isSome ∨ size = 0)
    (hone : flags &&& fsWriteAppend = 0 ∨ flags &&& fsWriteTruncate = 0)
    (hcr : flags &&& fsWriteCreate ≠ 0) (hno : NoEntry m R d sn) (hfree : FirstFree m R d n e) :
    LateRefusal m R d name buffer size flags ↔
      bytesPerCluster m < size.toNat ∨ size ≠ 0 ∧ NoFree m d := by
  subst hnm
  have hroom : ¬DirFull m R d := fun h => by
    obtain ⟨h0, h5⟩ := h n e hfree.dir
    exact hfree.free.elim h0 h5
  constructor
  · rintro (⟨⟨⟩, -, -, -, -, -, -, h⟩ | ⟨⟨⟩, hsn', -, -, -, he', -⟩)
    · exact h
    · obtain rfl := Option.some.inj (hsn'.symm.trans hsn)
      exact absurd he'.name (hno _ _ he'.dir he'.live)
  · exact fun h => .create rfl hsn hbuf hone hcr hno hroom h

theorem fsWrite_refusal (g : Geometry m) (name : NameArg) (buffer : BufferArg)
    (size flags : UInt32) (hs : Safe m R s) (hw : Whole m R s) :
    Total (fsWrite m name buffer size flags) s fun ok s' =>
      (ok = false → listing m R s'.disk = listing m R s.disk) ↔
        ¬LateRefusal m R s.disk name buffer size flags := by
  cases name with
  | none =>
    refine (total_pure ..).2 ⟨fun _ h => ?_, fun _ _ => rfl⟩
    cases h with
    | create hnm => cases hnm
    | truncate hnm => cases hnm
  | some nm =>
  refine (total_bind ..).2 ((fsWriteOpen_spec g (some nm) buffer size flags hs).mono ?_)
  rintro ok s₁ ⟨-, hs₁, hwhole⟩
  obtain ⟨hw₁, hout⟩ := hwhole hw
  generalize hd₁ : s₁.disk = d₁ at hout
  cases hout with
  | refused hwhy =>
    refine (total_pure ..).2 ⟨fun _ h => ?_, fun _ _ => by rw [hd₁]⟩
    rcases h with ⟨hnm, hsn, hbuf, hone, hcr, hno, hroom, -⟩ |
      ⟨hnm, hsn, hbuf, hone, -, he, hattr, hexcl, -⟩
    · rcases hwhy _ _ hnm hsn hbuf hone with ⟨n, e, he, -⟩ | ⟨-, h | h⟩
      · exact hno n e he.dir he.live he.name
      · exact hcr h
      · exact hroom h
    · rcases hwhy _ _ hnm hsn hbuf (.inl hone) with ⟨n, e, he', h⟩ | ⟨hno, -⟩
      · obtain ⟨-, rfl⟩ := he.det hw.exact he'
        exact h.elim (fun h => h hattr) fun h => h hexcl
      · exact hno _ _ he.dir he.live he.name
  | @found nm' sn n e hnm hsn hbuf hone he hattr hexcl =>
    obtain rfl := Option.some.inj hnm
    have hlate := lateRefusal_found hw.exact hnm hsn hbuf hone he hattr hexcl
    have he₁ : Entry m R s₁.disk sn n e := hd₁.symm ▸ he
    refine (total_ite ..).2 ⟨fun h => by simp at h, fun _ => ?_⟩
    refine (total_ite ..).2 ⟨fun htr => ?_, fun htr => ?_⟩
    · refine (truncate_write_spec g hs₁ hw₁ hsn he₁ hattr hbuf).mono ?_
      rintro ok s₂ ⟨hok, hlist⟩
      rw [hd₁] at hok hlist
      have htr' : flags &&& fsWriteTruncate ≠ 0 := by simpa using htr
      rw [hlate]
      constructor
      · rintro h ⟨-, hsize, hroom⟩
        exact hsize ((hlist (hok.2 hroom)).2.1 (h (hok.2 hroom)))
      · intro h hfalse
        refine (hlist hfalse).2.2 (by_contra fun hsize => ?_)
        exact h ⟨htr', hsize, hok.1 hfalse⟩
    · have htr' : flags &&& fsWriteTruncate = 0 := by simpa using htr
      have hnot : ¬LateRefusal m R s.disk (some nm) buffer size flags := fun h =>
        (hlate.1 h).1 htr'
      have hwr : ∀ {p : Prog Fs Bool} {s₂ : Fs}, s₂.disk = s.disk → (Total p s₂ fun ok s' =>
          ok = false → listing m R s'.disk = listing m R s₂.disk) → Total p s₂ fun ok s' =>
            (ok = false → listing m R s'.disk = listing m R s.disk) ↔
              ¬LateRefusal m R s.disk (some nm) buffer size flags :=
        fun hd h => h.mono fun ok s' h => ⟨fun _ => hnot, fun _ hok => by rw [h hok, hd]⟩
      refine (total_ite ..).2 ⟨fun _ => ?_, fun _ => hwr hd₁ (write_refused_spec g hs₁ hw₁)⟩
      refine (total_ite ..).2 ⟨fun _ => (total_pure ..).2 ⟨fun _ => hnot, by simp⟩,
        fun _ => (total_bind ..).2 ?_⟩
      refine (findRootEntryAt_spec g nm s₁ hs₁.tidy).mono ?_
      rintro r s₂ ⟨hr, ⟨f, k, rfl, -, -⟩ | ⟨rfl, -⟩⟩
      · have hd₂ : s₂.disk = s.disk := hr.disk.trans hd₁
        refine (total_ite ..).2 ⟨fun _ => hwr hd₂ (write_refused_spec g (hs₁.reads hr)
          (hw₁.reads hr)), fun _ => hwr hd₂ ?_⟩
        refine (fsAppendFile_spec g (some nm) buffer size (hs₁.reads hr)).mono ?_
        rintro ok s₃ ⟨-, -, h⟩ hok
        exact (h (hw₁.reads hr)).2.listing_eq g (hs₁.reads hr).tidy hok
      · exact (total_pure ..).2 ⟨fun _ => hnot, fun _ _ => by rw [hr.disk, hd₁]⟩
  | @created nm' sn n e _ hnm hsn hbuf hone hcr hno hfree hse =>
    obtain rfl := Option.some.inj hnm
    have hlate := lateRefusal_created hnm hsn hbuf hone hcr hno hfree
    have hvol := hse.vol_eq g hs.tidy.root.walk.nodup (fun _ => hs.tidy.root.two_le) hfree.dir
    have hlive := live_newDirent hsn
    have hgain : (listing m R s₁.disk).length = (listing m R s.disk).length + 1 := by
      rw [hd₁]
      exact length_listing_create hfree.dir (by rw [hvol]) (not_live_of_free hfree.free) hlive
    have he₁ : Entry m R s₁.disk sn n (newDirent sn) := by
      refine ⟨?_, hlive, Dirent.name_newDirent (length_makeShortNameChecked hsn)⟩
      rw [hd₁, hvol]
      exact List.getElem?_set_self (List.getElem?_eq_some_iff.1 hfree.dir).1
    have hattr : (newDirent sn).attr &&& 0x10 = 0 := by rw [attr_newDirent]; decide
    have hroom : NoFree m s₁.disk ↔ NoFree m s.disk := by
      have hval : fatValue m s₁.disk = fatValue m s.disk := by
        rw [hd₁]
        exact fatValue_congr g fun _ => hse.low
      simp only [NoFree, hval]
    -- what a write to the new file comes to
    have hend : ∀ {ok : Bool} {s' : Fs},
        (ok = false ↔ bytesPerCluster m < size.toNat ∨ size ≠ 0 ∧ NoFree m s₁.disk) →
        (ok = false → (listing m R s'.disk).length = (listing m R s₁.disk).length) →
        ((ok = false → listing m R s'.disk = listing m R s.disk) ↔
          ¬LateRefusal m R s.disk (some nm) buffer size flags) := by
      intro ok s' hok hlen
      rw [hlate, ← hroom, ← hok]
      refine ⟨fun h hfalse => ?_, fun h hfalse => absurd hfalse h⟩
      have := hlen hfalse
      rw [h hfalse, hgain] at this
      omega
    have hwrite : ∀ {s₂ : Fs}, Safe m R s₂ → Whole m R s₂ → s₂.disk = s₁.disk →
        Total (fsWriteFile m (some nm) buffer size) s₂ fun ok s' =>
          (ok = false → listing m R s'.disk = listing m R s.disk) ↔
            ¬LateRefusal m R s.disk (some nm) buffer size flags := by
      intro s₂ hs₂ hw₂ hd₂
      refine (write_empty_spec g hs₂ hw₂ hsn (hd₂.symm ▸ he₁) hattr hbuf
        (firstCluster_newDirent sn) (size_newDirent sn)).mono ?_
      rintro ok s₃ ⟨hok, hsame⟩
      rw [hd₂] at hok hsame
      exact hend hok fun h => by rw [hsame h]
    refine (total_ite ..).2 ⟨fun h => by simp at h, fun _ => ?_⟩
    refine (total_ite ..).2 ⟨fun htr => ?_, fun htr => ?_⟩
    · refine (truncate_write_spec g hs₁ hw₁ hsn he₁ hattr hbuf).mono ?_
      rintro ok s₂ ⟨hok, hlist⟩
      simp only [firstCluster_newDirent, true_and] at hok
      exact hend hok fun h => (hlist h).1
    · refine (total_ite ..).2 ⟨fun _ => ?_, fun _ => hwrite hs₁ hw₁ rfl⟩
      refine (total_ite ..).2 ⟨fun hzero => (total_pure ..).2 ?_, fun _ => (total_bind ..).2 ?_⟩
      · subst hzero
        exact hend (by simp) (by simp)
      refine (findRootEntryAt_spec g nm s₁ hs₁.tidy).mono ?_
      rintro r s₂ ⟨hr, ⟨f, k, rfl, hf, hname⟩ | ⟨rfl, hnone⟩⟩
      · rw [makeShortName_of_checked hsn] at hname
        obtain ⟨-, hfe⟩ := he₁.det hw₁.exact (hf.toEntry hname)
        refine (total_ite ..).2 ⟨fun _ => hwrite (hs₁.reads hr) (hw₁.reads hr) hr.disk,
          fun hne => ?_⟩
        rw [hfe] at hne
        exact absurd (firstCluster_newDirent sn) hne
      · rw [makeShortName_of_checked hsn] at hnone
        rcases hnone with hno' | hnone
        · exact absurd hw₁.reliable hno'.not_reliable
        · exact absurd he₁.name (hnone n _ he₁.dir he₁.live)

/-- On a consistent volume and a reliable disk, a call that returns 0 has left the listing as it was
exactly when it is not an `fs_write` that refuses late. -/
theorem refused_keeps_listing (g : Geometry m) (h : Consistent m R d) (sector : Sector) (c : Call) :
    Total (c.run m) (Fs.start d sector []) fun ok s' =>
      (ok = false → listing m R s'.disk = listing m R d) ↔ ¬c.LateRefusal m R d := by
  have hs := h.safe sector []
  have hw := h.whole sector
  have hkept : ∀ {p : Prog Fs Bool} {Q : Bool → Fs → Prop},
      (∀ s', Q false s' → listing m R s'.disk = listing m R d) →
      Total p (Fs.start d sector []) Q → Total p (Fs.start d sector []) fun ok s' =>
        (ok = false → listing m R s'.disk = listing m R d) ↔ ¬False := by
    intro p Q hQ hp
    refine hp.mono fun ok s' hq => ⟨fun _ => id, fun _ hok => ?_⟩
    subst hok
    exact hQ s' hq
  cases c with
  | create name =>
    refine hkept (fun s' ⟨_, _, hwhole⟩ => ?_) (fsCreate_spec g name hs)
    have hout := (hwhole hw).2
    generalize s'.disk = d' at hout
    cases hout with
    | refused _ => rfl
  | writeFile name buffer size => exact hkept (fun s' h => h rfl) (write_refused_spec g hs hw)
  | appendFile name buffer size =>
    exact hkept (fun s' ⟨_, _, hwhole⟩ => (hwhole hw).2.listing_eq g hs.tidy rfl)
      (fsAppendFile_spec g name buffer size hs)
  | truncateFile name =>
    refine hkept (fun s' ⟨_, _, hwhole⟩ => ?_) (fsTruncateFile_spec g name hs)
    have hout := (hwhole hw).2
    generalize s'.disk = d' at hout
    cases hout with
    | refused _ => rfl
  | write name buffer size flags => exact fsWrite_refusal g name buffer size flags hs hw
  | deleteFile name =>
    refine hkept (fun s' ⟨_, _, hwhole⟩ => ?_) (fsDeleteFile_spec g name hs)
    have hout := (hwhole hw).2
    generalize s'.disk = d' at hout
    cases hout with
    | refused _ => rfl
  | renameFile oldName newName =>
    refine hkept (fun s' ⟨_, _, hwhole⟩ => ?_) (fsRenameFile_spec g oldName newName hs)
    have hout := (hwhole hw).2
    generalize s'.disk = d' at hout
    cases hout with
    | refused => rfl

theorem refused_keeps_listing_tiny : Total ((Call.create (some [0x41])).run tiny)
    (Fs.start (blankDisk tiny) (fun _ => 0) []) fun ok s' =>
      (ok = false → listing tiny [2] s'.disk = listing tiny [2] (blankDisk tiny)) ↔
        ¬(Call.create (some [0x41])).LateRefusal tiny [2] (blankDisk tiny) :=
  refused_keeps_listing tiny_geometry consistent_tiny _ _

/-- A new file for more than a cluster of bytes: `fs_write` returns 0 and leaves the file behind,
empty. -/
theorem write_too_big : Consistent tiny [2] (blankDisk tiny) ∧
    Total ((Call.write (some [0x41]) (some fun _ => 7) 513 fsWriteCreate).run tiny)
      (Fs.start (blankDisk tiny) (fun _ => 0) []) fun ok s' =>
        ok = false ∧ listing tiny [2] (blankDisk tiny) = [] ∧
          listing tiny [2] s'.disk = [⟨[0x41], 0, []⟩] := by
  refine ⟨consistent_tiny, ?_⟩
  have hrun : (((Call.write (some [0x41]) (some fun _ => 7) 513 fsWriteCreate).run tiny)
      (Fs.start (blankDisk tiny) (fun _ => 0) [])).map (fun x =>
        (x.1, listing tiny [2] (blankDisk tiny), listing tiny [2] x.2.disk)) =
      some (false, [], [⟨[0x41], 0, []⟩]) := by decide
  obtain ⟨⟨ok, s'⟩, hs', h⟩ := Option.map_eq_some_iff.1 hrun
  exact ⟨ok, s', hs', by simpa using h⟩

end MinervaOS.Fat32
