import MinervaOS.Fat32.Chunks
import MinervaOS.Lib.Reader

/-!
# Files in buffers

An application reads the first bytes of its file into a buffer of its own and takes them apart
there.
-/

namespace MinervaOS.Apps

open Fat32 Prog Reader

variable {m : Mount} {s : Fs} {bytes : List UInt8}

/-! ## Reading a file into a buffer -/

/-- What is read of a file that was opened. -/
theorem read_of_files {R : List Nat} {nm : List UInt8} (g : Geometry m) (hr : Ready m R s)
    (hnm : (makeShortNameChecked nm).isSome)
    (hfile : files m R s.disk (nm.map upperAscii) = some bytes) :
    Total (fsOpen m (some nm)) s fun r s₁ => ∃ file, r = some file ∧
      fsFileSize file = bytes.length ∧
      ∀ buffer count, Total (fsRead m file (some buffer) count) s₁ fun r _ =>
        r.1 = min count bytes.length ∧ bufferBytes r.2.2 r.1 = bytes.take r.1 := by
  obtain ⟨sn, hsn⟩ := Option.isSome_iff_exists.1 hnm
  have hw := hr.wellFormed
  obtain ⟨n, e, he, hattr, rfl⟩ := entry_of_files hw (makeShortName_of_checked hsn ▸ hsn) hfile
  have hcov : Covered m s.disk e := hw.covered n e he.dir he.live
  refine (fsOpen_entry g hr.safe hr.whole he hattr).mono ?_
  rintro r s₁ ⟨hreads, rfl⟩
  refine ⟨_, rfl, (hcov.length_contents g).symm, fun buffer count => ?_⟩
  have hcov₁ : Covered m s₁.disk e := hreads.disk ▸ hcov
  refine (fsRead_contents g hcov₁ (Nat.zero_le _) buffer count
    (hreads.ext.reliable hr.whole.reliable)).mono ?_
  rintro r s₂ ⟨-, hcount, -, b, hb, hbytes⟩
  rw [hcov.length_contents g]
  refine ⟨hcount, ?_⟩
  rw [hb, hbytes, hreads.disk, List.drop_zero]

/-- A sector's worth of bytes is no more than what is left of the count. -/
theorem readSectors_le (cluster count : Nat) :
    ∀ (n k offset read : Nat) (buffer : Nat → UInt8) (s : Fs),
    read ≤ count → Meets (readSectors m cluster count n k offset read buffer) s fun r _ =>
      ∀ read', r.1 = some read' → read' ≤ count
  | 0, _, _, read, _, _, hread => by
    refine Meets.pure fun read' h => ?_
    obtain rfl := Option.some.inj h
    exact hread
  | n + 1, k, offset, read, buffer, s, hread => by
    refine Meets.ite (fun _ => Meets.pure fun read' h => ?_) fun _ => Meets.bind fun ok s₁ _ =>
      Meets.ite (fun _ => Meets.pure fun _ h => by cases h) fun _ => Meets.bind fun s₂ s₃ _ => ?_
    · obtain rfl := Option.some.inj h
      exact hread
    · exact readSectors_le cluster count n (k + 1) 0 _ _ s₃ (by omega)

theorem readClusters_le (count steps cluster skip read : Nat) (buffer : Nat → UInt8) (s : Fs)
    (hread : read ≤ count) :
    Meets (readClusters m count steps cluster skip read buffer) s fun r _ =>
      ∀ read', r.1 = some read' → read' ≤ count := by
  have hstop : ∀ read' : Nat, some read = some read' → read' ≤ count := by
    intro read' h
    obtain rfl := Option.some.inj h
    exact hread
  induction steps generalizing cluster skip read buffer s with
  | zero =>
    unfold readClusters
    exact Meets.ite (fun _ => Meets.pure hstop) fun _ a s' h =>
      absurd h.symm (Option.some_ne_none _)
  | succ steps ih =>
    unfold readClusters
    refine Meets.ite (fun _ => Meets.pure hstop) fun _ => Meets.bind ?_
    refine (readSectors_le cluster count _ _ _ read buffer s hread).mono fun r s₁ hr => ?_
    obtain ⟨read', buffer'⟩ := r
    cases read' with
    | none => exact Meets.pure fun _ h => by cases h
    | some read' =>
      have hle := hr read' rfl
      refine Meets.bind fun next s₂ _ => ih next 0 read' buffer' s₂ hle ?_
      intro read'' h
      obtain rfl := Option.some.inj h
      exact hle

/-- `fs_read` delivers no more than it is asked for. -/
theorem fsRead_le (file : FsFile) (buffer : BufferArg) (count : Nat) (s : Fs) :
    Meets (fsRead m file buffer count) s fun r _ => r.1 ≤ count := by
  cases buffer with
  | none => exact Meets.pure (Nat.zero_le _)
  | some b =>
    refine Meets.ite (fun _ => Meets.pure (Nat.zero_le _)) fun _ =>
      Meets.ite (fun _ => Meets.pure (Nat.zero_le _)) fun _ =>
        Meets.bind fun c s₁ _ => Meets.bind ?_
    refine (readClusters_le _ _ _ _ 0 b s₁ (Nat.zero_le _)).mono fun r s₂ hr => ?_
    obtain ⟨read, b'⟩ := r
    cases read with
    | none => exact Meets.pure (Nat.zero_le _)
    | some read => exact Meets.pure (Nat.le_trans (hr read rfl) (Nat.min_le_left _ _))

/-- A probe of a file: what it returned and left, how far into the buffer it read, and what the
buffer held when it did. -/
structure Probe (σ α : Type) where
  outcome : Outcome σ α
  buffer : Memory
  /-- How many bytes of the buffer are from the file. -/
  read : Nat
  fileSize : Nat

/-- A probe that found no file to read. -/
def Probe.unread {σ α : Type} (value : α) (fields : σ) : Probe σ α :=
  ⟨⟨value, fields, 0, 0⟩, fun _ => 0, 0, 0⟩

/-- The buffer as memory. -/
def bufferMemory (buffer : BufferArg) : Memory := fun pos => (buffer.getD fun _ => 0) pos.toNat

/-! ## Numbers and tags in a buffer -/

section Numbers

variable {σ : Type} {mem : Memory} {offset : UInt32} {x : σ} {n : Nat}

/-- `rd16`: two bytes, the low one first. -/
def rd16 (offset : UInt32) : Reader σ UInt16 := do
  let b₀ ← byte offset
  let b₁ ← byte (offset + 1)
  return b₀.toUInt16 ||| (b₁.toUInt16 <<< 8)

def rd32 (offset : UInt32) : Reader σ UInt32 := do
  let b₀ ← byte offset
  let b₁ ← byte (offset + 1)
  let b₂ ← byte (offset + 2)
  let b₃ ← byte (offset + 3)
  return b₀.toUInt32 ||| (b₁.toUInt32 <<< 8) ||| (b₂.toUInt32 <<< 16) ||| (b₃.toUInt32 <<< 24)

/-- The number that `rd16` reads. -/
def num16 (mem : Memory) (offset : UInt32) : UInt16 :=
  (mem offset).toUInt16 ||| ((mem (offset + 1)).toUInt16 <<< 8)

def num32 (mem : Memory) (offset : UInt32) : UInt32 :=
  (mem offset).toUInt32 ||| ((mem (offset + 1)).toUInt32 <<< 8) |||
    ((mem (offset + 2)).toUInt32 <<< 16) ||| ((mem (offset + 3)).toUInt32 <<< 24)

theorem toNat_add_le (a b : UInt32) : (a + b).toNat ≤ a.toNat + b.toNat := by
  rw [UInt32.toNat_add]
  exact Nat.mod_le _ _

theorem ok_rd16 (h : offset.toNat + 2 ≤ n) :
    Ok (rd16 offset : Reader σ UInt16) mem x n fun a y => a = num16 mem offset ∧ y = x := by
  have h₁ : (offset + 1).toNat ≤ offset.toNat + 1 := toNat_add_le offset 1
  refine Ok.bind (Ok.byte (by omega)) fun b₀ y hb => ?_
  obtain ⟨rfl, rfl⟩ := hb
  refine Ok.bind (Ok.byte (by omega)) fun b₁ y hb => ?_
  obtain ⟨rfl, rfl⟩ := hb
  exact Ok.pure ⟨rfl, rfl⟩

theorem ok_rd32 (h : offset.toNat + 4 ≤ n) :
    Ok (rd32 offset : Reader σ UInt32) mem x n fun a y => a = num32 mem offset ∧ y = x := by
  have h₁ : (offset + 1).toNat ≤ offset.toNat + 1 := toNat_add_le offset 1
  have h₂ : (offset + 2).toNat ≤ offset.toNat + 2 := toNat_add_le offset 2
  have h₃ : (offset + 3).toNat ≤ offset.toNat + 3 := toNat_add_le offset 3
  refine Ok.bind (Ok.byte (by omega)) fun b₀ y hb => ?_
  obtain ⟨rfl, rfl⟩ := hb
  refine Ok.bind (Ok.byte (by omega)) fun b₁ y hb => ?_
  obtain ⟨rfl, rfl⟩ := hb
  refine Ok.bind (Ok.byte (by omega)) fun b₂ y hb => ?_
  obtain ⟨rfl, rfl⟩ := hb
  refine Ok.bind (Ok.byte (by omega)) fun b₃ y hb => ?_
  obtain ⟨rfl, rfl⟩ := hb
  exact Ok.pure ⟨rfl, rfl⟩

theorem returns_rd16 (offset : UInt32) :
    Reader.Returns (rd16 offset : Reader σ UInt16) mem (num16 mem offset) :=
  fun _ => ⟨rfl, rfl⟩

theorem returns_rd32 (offset : UInt32) :
    Reader.Returns (rd32 offset : Reader σ UInt32) mem (num32 mem offset) :=
  fun _ => ⟨rfl, rfl⟩

/-- The bytes at an offset are those of a tag; the comparison stops at the first that is not. -/
def tagEq : UInt32 → List UInt8 → Reader σ Bool
  | _, [] => return true
  | offset, c :: tag => do
    if (← byte offset) != c then return false
    tagEq (offset + 1) tag

/-- What `tagEq` finds. -/
def hasTag (mem : Memory) : UInt32 → List UInt8 → Bool
  | _, [] => true
  | offset, c :: tag => mem offset == c && hasTag mem (offset + 1) tag

theorem ok_tagEq (tag : List UInt8) (h : offset.toNat + tag.length ≤ n) :
    Ok (tagEq offset tag : Reader σ Bool) mem x n fun a y => a = hasTag mem offset tag ∧ y = x := by
  induction tag generalizing offset with
  | nil => exact Ok.pure ⟨rfl, rfl⟩
  | cons c tag ih =>
    have hnext : (offset + 1).toNat ≤ offset.toNat + 1 := toNat_add_le offset 1
    rw [List.length_cons] at h
    refine Ok.bind (Ok.byte (by omega)) fun b y hb => ?_
    obtain ⟨rfl, rfl⟩ := hb
    refine Ok.ite (fun hne => Ok.pure ⟨?_, rfl⟩) fun heq => (ih (by omega)).mono fun a y ha => ?_
    · simp only [bne_iff_ne] at hne
      simp [hasTag, hne]
    · simp only [bne_iff_ne, not_not] at heq
      simp [hasTag, heq, ha.1, ha.2]

theorem returns_tagEq (offset : UInt32) (tag : List UInt8) :
    Reader.Returns (tagEq offset tag : Reader σ Bool) mem (hasTag mem offset tag) := by
  induction tag generalizing offset with
  | nil => exact Reader.Returns.pure true
  | cons c tag ih =>
    refine (Reader.Returns.byte offset).bind ?_
    by_cases hc : mem offset = c
    · simpa [hasTag, hc] using ih (offset + 1)
    · have hfalse : hasTag mem offset (c :: tag) = false := by simp [hasTag, hc]
      rw [hfalse, if_pos (by simpa using hc)]
      exact Reader.Returns.pure false

end Numbers

end MinervaOS.Apps
