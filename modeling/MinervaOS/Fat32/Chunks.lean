import MinervaOS.Fat32.Refinement
import Mathlib.Algebra.GroupWithZero.Nat

/-!
# A file in pieces

A handle from `fs_open` stays at the bytes it has read: the next call takes up where the last one
stopped, on whatever boundary of a sector or a cluster that is. So the pieces that the calls return
are the file cut up, `fs_read_file` returns it in one, and `cat` prints it in pieces of 511.
-/

namespace MinervaOS.Fat32

open Prog

/-- What a call of `fs_read` does for its caller: how much it returns, where it leaves the handle,
and the bytes in the buffer. -/
structure Piece where
  read : Nat
  position : Nat
  bytes : List UInt8

section

variable (m : Mount)

/-- `fs_read` on one handle, for one buffer and count after the other. -/
def fsReads : FsFile → List ((Nat → UInt8) × UInt32) → Prog Fs (List Piece × FsFile)
  | file, [] => return ([], file)
  | file, (buffer, count) :: calls => do
    let (read, file', buffer') ← fsRead m file (some buffer) count.toNat
    let (pieces, last) ← fsReads file' calls
    return (⟨read, file'.position, bufferBytes buffer' read⟩ :: pieces, last)

/-- How `cat` ends. -/
inductive CatEnd where
  | noFilesystem
  | failed
  | newline
  | quiet
  deriving DecidableEq

/-- `while (total < size)`: what is printed, `total`, `last` and the handle. -/
def catLoop (size : Nat) : Nat → FsFile → (Nat → UInt8) → Nat → UInt8 →
    Prog Fs (List (List UInt8) × Nat × UInt8 × FsFile)
  | steps, file, fileBuffer, total, last => do
    if !(total < size) then return ([], total, last, file)
    match steps with
    | 0 => failure
    | steps + 1 =>
      let (got, file, buffer) ← fsRead m file (some fileBuffer) 511
      if got = 0 then return ([], total, last, file)
      let bytes := Function.update (buffer.getD fileBuffer) got 0
      let (printed, total, last, file) ← catLoop size steps file bytes (u32 (total + got))
        (bytes (got - 1))
      return (bufferBytes (some bytes) got :: printed, total, last, file)

/-- The `cat` command: the pieces of the file that it prints, each behind `file_buffer[got] = 0`,
and how it ends. -/
def cat (name : NameArg) (fileBuffer : Nat → UInt8) : Prog Fs (List (List UInt8) × CatEnd) := do
  if !m.mounted then return ([], .noFilesystem)
  let some file ← fsOpen m name | return ([], .failed)
  let size := fsFileSize file
  let (printed, total, last, file) ← catLoop m size size file fileBuffer 0 0
  let _ := fsClose file
  if total ≠ size then return (printed, .failed)
  if size = 0 ∨ last ≠ 0x0A then return (printed, .newline)
  return (printed, .quiet)

end

/-- `content` cut up from `position` on, into pieces as long as asked for while there is any of it
left. -/
def cut (content : List UInt8) : Nat → List Nat → List Piece
  | _, [] => []
  | position, count :: counts =>
    let read := min count (content.length - position)
    ⟨read, position + read, (content.drop position).take read⟩ :: cut content
      (position + read) counts

/-- The pieces are a prefix of what they were cut from, as long as the counts say. -/
theorem flatten_cut (content : List UInt8) : ∀ (counts : List Nat) (position : Nat),
    ((cut content position counts).map Piece.bytes).flatten =
      (content.drop position).take counts.sum
  | [], position => by simp [cut]
  | count :: counts, position => by
    have ih := flatten_cut content counts (position + min count (content.length - position))
    simp only [cut, List.map_cons, List.flatten_cons, List.sum_cons, ih]
    rw [← List.drop_drop, ← List.take_add, List.take_eq_take_iff, List.length_drop]
    omega

variable {m : Mount} {R : List Nat} {s s' : Fs} {d : Disk}

/-- The chain of the entry reaches to the end of its file. -/
def Covered (m : Mount) (d : Disk) (e : Dirent) : Prop :=
  ∃ l, Chain (fatValue m d) (maxCluster m) (firstCluster e) l ∧
    e.size ≤ l.length * bytesPerCluster m

section

variable (g : Geometry m) {e : Dirent}

include g

theorem Covered.length_contents (h : Covered m d e) : (contents m d e).length = e.size := by
  obtain ⟨l, hch, hsize⟩ := h
  rw [contents_eq g hch hsize, List.length_map, List.length_range]

/-- `fs_read` copies out what the file has from the position on. -/
theorem fsRead_contents (hcov : Covered m s.disk e) {position : Nat} (hpos : position ≤ e.size)
    (buffer : Nat → UInt8) (count : Nat) (hrel : s.faults = []) :
    Total (fsRead m (handle e position) (some buffer) count) s fun r s' => Reads s s' ∧
      r.1 = min count (e.size - position) ∧ r.2.1 = handle e (position + r.1) ∧
      ∃ bytes, r.2.2 = some bytes ∧
        bufferBytes (some bytes) r.1 = ((contents m s.disk e).drop position).take r.1 := by
  obtain ⟨l, hch, hsize⟩ := hcov
  refine (fsRead_spec g hch hsize position buffer count hrel).mono ?_
  rintro r s' ⟨hr, rfl⟩
  refine ⟨hr, rfl, rfl, _, rfl, ?_⟩
  have hend : position + min count (e.size - position) ≤ e.size := by omega
  dsimp only
  rw [bufferBytes_copyAt, contents_eq g hch hsize, ← List.map_drop, ← List.map_take]
  refine List.ext_getElem ?_ fun i h₁ h₂ => ?_
  · simp only [List.length_map, List.length_range, List.length_take, List.length_drop]
    omega
  · simp

omit g in
/-- The terminator stands behind the bytes. -/
theorem bufferBytes_update (bytes : Nat → UInt8) (n : Nat) :
    bufferBytes (some (Function.update bytes n 0)) n = bufferBytes (some bytes) n := by
  refine List.map_congr_left fun i hi => ?_
  have hlt := List.mem_range.1 hi
  exact Function.update_of_ne (by omega) _ _

omit g in
theorem getLastD_bufferBytes (bytes : Nat → UInt8) {n : Nat} (hn : 0 < n) (l : List UInt8)
    (last : UInt8) :
    (bufferBytes (some bytes) n ++ l).getLastD last = l.getLastD (bytes (n - 1)) := by
  obtain ⟨k, rfl⟩ : ∃ k, n = k + 1 := ⟨n - 1, by omega⟩
  simp [bufferBytes, List.range_succ, List.getLastD_eq_getLast?, List.getLast?_cons]

/-- A run of calls on one handle cuts the file up. -/
theorem fsReads_spec (hcov : Covered m d e) :
    ∀ (calls : List ((Nat → UInt8) × UInt32)) (position : Nat)
    (s : Fs), s.disk = d → s.faults = [] → position ≤ e.size →
    Total (fsReads m (handle e position) calls) s fun r s' => Reads s s' ∧
      r.1 = cut (contents m d e) position (calls.map fun call => call.2.toNat) ∧
      r.2 = handle e (min e.size (position + (calls.map fun call => call.2.toNat).sum))
  | [], position, s, _, _, hpos => by
    refine (total_pure ..).2 ⟨.refl s, rfl, ?_⟩
    simp only [List.map_nil, List.sum_nil, Nat.add_zero, Nat.min_eq_right hpos]
  | (buffer, count) :: calls, position, s, hd, hrel, hpos => by
    have hlen := hcov.length_contents g
    have hcall := fsRead_contents g (s := s) (hd.symm ▸ hcov) hpos buffer count.toNat hrel
    rw [hd] at hcall
    refine (total_bind ..).2 (hcall.mono ?_)
    rintro ⟨read, file, buffer'⟩ s₁ ⟨hr, hread, hfile, bytes, hbuffer, hbytes⟩
    simp only at hread hfile hbuffer hbytes
    subst hfile hbuffer
    refine (total_bind ..).2 ((fsReads_spec hcov calls (position + read) s₁ (hr.disk.trans hd)
      (hr.ext.reliable hrel) (by omega)).mono ?_)
    rintro ⟨pieces, last⟩ s₂ ⟨hr₂, hpieces, hlast⟩
    simp only at hpieces hlast
    refine (total_pure ..).2 ⟨hr.reads hr₂, ?_, ?_⟩
    · simp only [List.map_cons, cut, hlen, ← hread, hpieces, handle, hbytes]
    · simp only [List.map_cons, List.sum_cons, hlast]
      congr 1
      omega

/-- `cat` goes through the file to its end, and takes its last byte. -/
theorem catLoop_spec (hcov : Covered m d e) :
    ∀ (steps total : Nat) (buffer : Nat → UInt8) (last : UInt8)
    (s : Fs), s.disk = d → s.faults = [] → total ≤ e.size → e.size - total ≤ steps →
    Total (catLoop m e.size steps (handle e total) buffer total last) s fun r s' => Reads s s' ∧
      r.1.flatten = (contents m d e).drop total ∧ (∀ piece ∈ r.1, piece.length ≤ 511) ∧
        r.2.1 = e.size ∧
      r.2.2.1 = ((contents m d e).drop total).getLastD last := by
  intro steps total buffer last s hd hrel hle hsteps
  have hlen := hcov.length_contents g
  induction steps generalizing total buffer last s with
  | zero =>
    have htotal : total = e.size := by omega
    unfold catLoop
    rw [if_pos (by simp [htotal])]
    refine (total_pure ..).2 ⟨.refl s, ?_, by simp, htotal, ?_⟩
    · rw [htotal, ← hlen, List.drop_length]
      rfl
    · rw [htotal, ← hlen, List.drop_length]
      rfl
  | succ steps ih =>
    unfold catLoop
    refine (total_ite ..).2 ⟨fun hend => (total_pure ..).2 ⟨.refl s, ?_⟩, fun hgo => ?_⟩
    · have htotal : total = e.size := by
        simp only [Bool.not_eq_true', decide_eq_false_iff_not] at hend
        omega
      rw [htotal, ← hlen, List.drop_length]
      exact ⟨rfl, by simp, rfl, rfl⟩
    have hlt : total < e.size := by simpa using hgo
    have hcall := fsRead_contents g (s := s) (hd.symm ▸ hcov) hle buffer 511 hrel
    rw [hd] at hcall
    refine (total_bind ..).2 (hcall.mono ?_)
    rintro ⟨got, file, buffer'⟩ s₁ ⟨hr, hgot, hfile, bytes, hbuffer, hbytes⟩
    simp only at hgot hfile hbuffer hbytes
    subst hfile hbuffer
    refine (total_ite ..).2 ⟨fun h0 => by omega, fun _ => ?_⟩
    have hsum : u32 (total + got) = total + got := by
      have := e.size_lt
      exact u32_of_lt (by omega)
    simp only [hsum]
    refine (total_bind ..).2 ((ih _ _ _ s₁ (hr.disk.trans hd) (hr.ext.reliable hrel) (by omega)
      (by omega)).mono ?_)
    rintro ⟨printed, total', last', file⟩ s₂ ⟨hr₂, hflat, hshort, htotal, hlast⟩
    simp only at hflat hshort htotal hlast
    have hsplit : (contents m d e).drop total =
        bufferBytes (some bytes) got ++ (contents m d e).drop (total + got) := by
      rw [hbytes, ← List.drop_drop, List.take_append_drop]
    have hterm := bufferBytes_update bytes got
    refine (total_pure ..).2 ⟨hr.reads hr₂, ?_, ?_, htotal, ?_⟩
    · rw [hsplit, List.flatten_cons, hflat]
      exact congrArg (· ++ _) hterm
    · intro piece hpiece
      rcases List.mem_cons.1 hpiece with rfl | hpiece
      · simp only [bufferBytes, List.length_map, List.length_range]
        omega
      · exact hshort piece hpiece
    · rw [hsplit, getLastD_bufferBytes bytes (by omega)]
      refine hlast.trans (congrArg _ ?_)
      exact Function.update_of_ne (by omega) _ _

/-- `fs_open` of a file that is there. -/
theorem fsOpen_entry (hs : Safe m R s) (hw : Whole m R s) {nm : List UInt8} {n : Nat}
    (he : Entry m R s.disk (makeShortName nm) n e) (hattr : e.attr &&& 0x10 = 0) :
    Total (fsOpen m (some nm)) s fun r s' => Reads s s' ∧ r = some (handle e 0) := by
  refine (fsOpen_spec g (some nm) hs hw.reliable).mono ?_
  rintro r s' ⟨hr, ⟨nm', n', e', hnm, he', -, rfl⟩ | ⟨rfl, hnone⟩⟩
  · obtain rfl := Option.some.inj hnm
    rw [(he.det hw.exact he').2]
    exact ⟨hr, rfl⟩
  · rcases hnone nm rfl with hno | ⟨n', e', he', hattr'⟩
    · exact absurd he.name (hno n e he.dir he.live)
    · rw [(he.det hw.exact he').2] at hattr'
      exact absurd hattr hattr'

theorem cat_spec (hs : Safe m R s) (hw : Whole m R s) {nm : List UInt8} {n : Nat}
    (he : Entry m R s.disk (makeShortName nm) n e) (hattr : e.attr &&& 0x10 = 0)
    (hcov : Covered m s.disk e) (fileBuffer : Nat → UInt8) :
    Total (cat m (some nm) fileBuffer) s fun r s' =>
      Reads s s' ∧ r.1.flatten = contents m s.disk e ∧
      (∀ piece ∈ r.1, piece.length ≤ 511) ∧
      r.2 = if (contents m s.disk e).getLast? = some 0x0A then .quiet else .newline := by
  have hlen := hcov.length_contents g
  unfold cat
  rw [if_neg (by simp [g.mounted])]
  refine (total_bind ..).2 ((fsOpen_entry g hs hw he hattr).mono ?_)
  rintro r s₁ ⟨hr, rfl⟩
  have hsize : fsFileSize (handle e 0) = e.size := rfl
  simp only [hsize]
  refine (total_bind ..).2 ((catLoop_spec g hcov e.size 0 fileBuffer 0 s₁ hr.disk
    (hr.ext.reliable hw.reliable) (Nat.zero_le _) (by omega)).mono ?_)
  rintro ⟨printed, total, last, file⟩ s₂ ⟨hr₂, hflat, hshort, htotal, hlast⟩
  simp only [List.drop_zero] at hflat htotal hlast
  refine (total_ite ..).2 ⟨fun hne => absurd htotal hne, fun _ => ?_⟩
  have hempty : e.size = 0 ↔ contents m s.disk e = [] := by rw [← hlen, List.length_eq_zero_iff]
  rw [hlast, List.getLastD_eq_getLast?]
  refine (total_ite ..).2 ⟨fun hline => (total_pure ..).2 ⟨hr.reads hr₂, hflat, hshort, ?_⟩,
    fun hline => (total_pure ..).2 ⟨hr.reads hr₂, hflat, hshort, ?_⟩⟩
  · refine (if_neg fun hlast => ?_).symm
    rw [hempty, hlast] at hline
    rcases hline with hnil | hne
    · simp [hnil] at hlast
    · exact hne rfl
  · rw [not_or, hempty, not_not] at hline
    obtain ⟨hne, hline⟩ := hline
    have hlast : (contents m s.disk e).getLast? = some 0x0A := by
      rw [List.getLast?_eq_some_getLast hne] at hline ⊢
      rw [← hline, Option.getD_some]
    exact (if_pos hlast).symm

end

/-- Every run of `fs_read` on a handle of `fs_open` cuts the file up at the handle's position,
`fs_read_file` into a buffer with room returns all of it, and `cat` prints it. -/
theorem reads_agree (g : Geometry m) (h : Consistent m R d) (sector : Sector)
    {nm : List UInt8} {n : Nat}
    {e : Dirent} (he : Entry m R d (makeShortName nm) n e) (hattr : e.attr &&& 0x10 = 0)
    (hcov : Covered m d e) :
    (∀ calls : List ((Nat → UInt8) × UInt32),
        Total (fsOpen m (some nm)) (Fs.start d sector []) fun r s =>
      ∃ file, r = some file ∧ Total (fsReads m file calls) s fun r s' => s'.disk = d ∧
        r.1 = cut (contents m d e) 0 (calls.map fun call => call.2.toNat) ∧
        (r.1.map Piece.bytes).flatten =
          (contents m d e).take (calls.map fun call => call.2.toNat).sum) ∧
    (∀ (buffer : Nat → UInt8) (bufferSize : UInt32), (contents m d e).length ≤ bufferSize.toNat →
      Total (fsReadFile m (some nm) (some buffer) bufferSize) (Fs.start d sector []) fun r s' =>
        s'.disk = d ∧ r.1 = true ∧ bufferBytes r.2.2 r.2.1 = contents m d e) ∧
    ∀ fileBuffer : Nat → UInt8,
        Total (cat m (some nm) fileBuffer) (Fs.start d sector []) fun r s' =>
      s'.disk = d ∧ r.1.flatten = contents m d e ∧ (∀ piece ∈ r.1, piece.length ≤ 511) ∧
        r.2 = if (contents m d e).getLast? = some 0x0A then .quiet else .newline := by
  have hs := h.safe sector []
  have hw := h.whole sector
  have hlen := hcov.length_contents g
  refine ⟨fun calls => ?_, fun buffer bufferSize hroom => ?_, fun fileBuffer => ?_⟩
  · refine (fsOpen_entry g hs hw he hattr).mono ?_
    rintro r s ⟨hr, rfl⟩
    refine ⟨_, rfl, (fsReads_spec g hcov calls 0 s hr.disk (hr.ext.reliable hw.reliable)
      (Nat.zero_le _)).mono ?_⟩
    rintro ⟨pieces, last⟩ s' ⟨hr', rfl, -⟩
    have hflat := flatten_cut (contents m d e) (calls.map fun call => call.2.toNat) 0
    rw [List.drop_zero] at hflat
    exact ⟨hr'.disk.trans hr.disk, rfl, hflat⟩
  · obtain ⟨l, hch, hsize⟩ := hcov
    rw [hlen] at hroom
    refine (fsReadFile_spec g hs hw he hattr hch hsize (some buffer) bufferSize (.inl rfl)
      hroom).mono ?_
    rintro r s' ⟨hr, hok, hread, hbytes⟩
    exact ⟨hr.disk, hok, hread ▸ hbytes⟩
  · refine (cat_spec g hs hw he hattr hcov fileBuffer).mono ?_
    rintro r s' ⟨hr, hout⟩
    exact ⟨hr.disk, hout⟩

/-- A file "A" of two bytes. -/
def twoBytes : Prog Fs Bool := do
  if !(← fsCreate tiny (some [0x41])) then return false
  fsWriteFile tiny (some [0x41]) (some fun _ => 7) 2

theorem twoBytes_ready : Total twoBytes (Fs.start (blankDisk tiny) (fun _ => 0) []) fun _ s =>
    Ready tiny [2] s ∧ files tiny [2] s.disk [0x41] = some [7, 7] := by
  have hready : Total twoBytes (Fs.start (blankDisk tiny) (fun _ => 0) []) fun _ s =>
      Ready tiny [2] s := by
    refine (total_bind ..).2 ((fsCreate_files tiny_geometry (wellFormed_tiny.ready _)).mono ?_)
    intro ok s h
    refine (total_ite ..).2 ⟨fun _ => (total_pure ..).2 h.1, fun _ => ?_⟩
    exact (fsWriteFile_files tiny_geometry h.1).mono fun _ _ h => h.1
  have hrun : (twoBytes (Fs.start (blankDisk tiny) (fun _ => 0) [])).map (fun x =>
      files tiny [2] x.2.disk [0x41]) = some (some [7, 7]) := by decide +kernel
  refine hready.with_eq.mono ?_
  intro ok s h
  refine ⟨h.2, ?_⟩
  rw [h.1] at hrun
  exact Option.some.inj hrun

/-- The two bytes read one by one, the second by a call that asks for five. -/
theorem reads_agree_tiny : Total twoBytes (Fs.start (blankDisk tiny) (fun _ => 0) []) fun _ s =>
    Total (fsOpen tiny (some [0x61])) (Fs.start s.disk s.sector []) fun r t =>
      ∃ file, r = some file ∧
          Total (fsReads tiny file [(fun _ => 0, 1), (fun _ => 0, 5)]) t fun r _ =>
        r.1 = [⟨1, 1, [7]⟩, ⟨1, 2, [7]⟩] := by
  refine twoBytes_ready.mono ?_
  intro ok s h
  obtain ⟨hr, hf⟩ := h
  have hw := hr.wellFormed
  have hsn : makeShortNameChecked [0x61] = some (makeShortName [0x61]) := by decide
  obtain ⟨n, e, he, hattr, hbytes⟩ := entry_of_files hw hsn hf
  refine ((reads_agree tiny_geometry hw.consistent s.sector he hattr
    (hw.covered n e he.dir he.live)).1 [(fun _ => 0, 1), (fun _ => 0, 5)]).mono ?_
  intro r t h
  obtain ⟨file, hfile, hreads⟩ := h
  refine ⟨file, hfile, hreads.mono ?_⟩
  intro r' t' h
  rw [h.2.1, hbytes]
  rfl

end MinervaOS.Fat32
