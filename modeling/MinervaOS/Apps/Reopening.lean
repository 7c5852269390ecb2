import MinervaOS.Apps.Editor
import MinervaOS.Apps.Buffers

/-!
# Opening and saving files in the editor

Saving a document that was loaded and typed in, and opening the file again, shows the document as it
was. A file that is loaded is saved as its kept bytes: `editor_load_bytes` passes over a carriage
return or a byte that is not text without setting `truncated`, so such a file is reported as loaded
too.
-/

namespace MinervaOS.Apps

open Fat32 Prog

variable {m : Mount} {editor : TextEditor} {d : Document} {s s₁ s₂ : Fs} {c : UInt8}
    {bytes : List UInt8}

/-! ## Typing in a loaded file -/

theorem editorLoadFile_shows (m : Mount) (editor : TextEditor) (fileBuffer : Nat → UInt8) (s : Fs) :
    Meets (editorLoadFile m editor fileBuffer) s fun e _ => ∃ d, Shows e d := by
  have hclear : ∃ d, Shows { editorClearBuffer editor with status := .noFs, dirty := false } d :=
    ⟨_, (shows_clear editor).congr rfl rfl rfl⟩
  refine Meets.ite (fun _ => Meets.pure hclear) fun _ => Meets.bind fun file s₁ _ => ?_
  cases file with
  | none => exact Meets.pure ⟨_, (shows_clear editor).congr rfl rfl rfl⟩
  | some file =>
    refine Meets.bind fun r s₂ _ => ?_
    obtain ⟨read, file', buffer⟩ := r
    obtain ⟨d, hd, -⟩ := (shows_clear editor).load (bufferBytes buffer read)
    exact Meets.pure ⟨d, hd.congr rfl rfl rfl⟩

theorem handleKey_shows (m : Mount) (c : UInt8) (h : Shows editor d) (s : Fs) :
    Meets (textEditorHandleKey m editor c) s fun e _ => ∃ d, Shows e d := by
  refine Meets.ite (fun _ => ?_) fun _ => Meets.ite (fun _ => Meets.pure h.backspace) fun _ =>
    Meets.ite (fun _ => Meets.pure h.newline) fun _ => Meets.ite (fun hc => ?_) fun _ =>
      Meets.pure ⟨d, h⟩
  · refine Meets.ite (fun _ => Meets.pure ⟨d, h.congr rfl rfl rfl⟩) fun _ =>
      Meets.bind fun ok s₁ _ => ?_
    exact Meets.ite (fun _ => Meets.pure ⟨d, h.congr rfl rfl rfl⟩) fun _ =>
      Meets.pure ⟨d, h.congr rfl rfl rfl⟩
  · exact Meets.pure (h.insertChar hc)

theorem keys_shows (m : Mount) (keys : List UInt8) (h : Shows editor d) (s : Fs) :
    Meets (keys.foldlM (textEditorHandleKey m) editor) s fun e _ => ∃ d, Shows e d := by
  induction keys generalizing editor d s with
  | nil => exact Meets.pure ⟨d, h⟩
  | cons c keys ih =>
    rw [List.foldlM_cons]
    refine Meets.bind ((handleKey_shows m c h s).mono fun e s₁ he => ?_)
    obtain ⟨d', hd'⟩ := he
    exact ih hd' s₁

/-- What was loaded and typed comes back when its saved bytes are loaded, whatever the editor showed
in between. -/
theorem reopen_restores (m : Mount) (editor : TextEditor) (fileBuffer : Nat → UInt8)
    (keys : List UInt8)
    (s : Fs) :
    Meets (do
      let editor ← editorLoadFile m editor fileBuffer
      keys.foldlM (textEditorHandleKey m) editor) s fun editor _ => ∀ stale : TextEditor,
        let reopened := editorLoadBytes stale (editorBuildSaveBuffer editor)
        reopened.lines = editor.lines ∧ reopened.cursorRow = editor.cursorRow ∧
          reopened.cursorCol = editor.cursorCol ∧ reopened.truncated = false := by
  refine Meets.bind ((editorLoadFile_shows m editor fileBuffer s).mono fun e s₁ he => ?_)
  obtain ⟨d, hd⟩ := he
  refine (keys_shows m keys hd s₁).mono fun e' s₂ he' stale => ?_
  obtain ⟨d', hd'⟩ := he'
  simp only [hd'.save, loadBytes_bytes]
  exact ⟨hd'.lines.symm, hd'.cursorRow.symm, hd'.cursorCol.symm, rfl⟩

/-! ## Saving a loaded file -/

/-- The kept bytes are the text of a document: at most twelve rows of at most twenty-five
characters. -/
def Fits (bytes : List UInt8) : Prop := ∃ d : Document, d.bytes = bytes.filter isKept

/-- Bytes that are passed over make no difference. -/
theorem loadFrom_filter (editor : TextEditor) (bytes : List UInt8) :
    loadFrom editor bytes = loadFrom editor (bytes.filter isKept) := by
  induction bytes generalizing editor with
  | nil => rfl
  | cons c rest ih =>
    by_cases hc : isKept c
    · rw [List.filter_cons_of_pos hc]
      simp only [loadFrom, ← ih]
    · rw [List.filter_cons_of_neg hc, ← ih]
      simp only [isKept, Bool.or_eq_true, not_or, Bool.not_eq_true] at hc
      by_cases hcr : c == carriageReturn
      · rw [loadFrom, if_pos hcr]
      · rw [loadFrom, if_neg hcr, if_neg (by simp [hc.1]), if_pos (by simp [hc.2])]

/-- A load cuts nothing off exactly when the kept bytes fit; then they are what a save writes. -/
theorem loadBytes_truncated (editor : TextEditor) (bytes : List UInt8) :
    (editorLoadBytes editor bytes).truncated = false ↔ Fits bytes := by
  constructor
  · intro hkept
    obtain ⟨d, -, hbytes⟩ := (shows_clear editor).load bytes
    exact ⟨d, hbytes hkept⟩
  · rintro ⟨d, hd⟩
    rw [editorLoadBytes, loadFrom_filter, ← hd]
    exact congrArg TextEditor.truncated (loadBytes_bytes editor d)

theorem save_loadBytes (editor : TextEditor) (h : Fits bytes) :
    editorBuildSaveBuffer (editorLoadBytes editor bytes) = bytes.filter isKept := by
  obtain ⟨d, hd, hbytes⟩ := (shows_clear editor).load bytes
  exact hd.save.trans (hbytes ((loadBytes_truncated editor bytes).2 h))

/-- What a save reads of an editor. -/
theorem save_congr {editor' : TextEditor} (hlines : editor'.lines = editor.lines)
    (hrow : editor'.cursorRow = editor.cursorRow) :
    editorBuildSaveBuffer editor' = editorBuildSaveBuffer editor := by
  unfold editorBuildSaveBuffer
  rw [hlines, hrow]

/-- After a load that is reported as complete a save writes the file's bytes exactly when all of
them are kept. Bytes that are passed over go unreported, where those that do not fit are reported.
-/
theorem loaded_saves_iff {file file' : FsFile} {read : Nat} {fileBuffer : Nat → UInt8}
    {buffer : BufferArg}
    (hm : m.mounted = true) (hopen : fsOpen m (some editor.filename) s = some (some file, s₁))
    (hread : fsRead m file (some fileBuffer) editorFileSize s₁ = some ((read, file', buffer), s₂)) :
    Total (editorLoadFile m editor fileBuffer) s fun e _ =>
      ((e.status = .loaded → editorBuildSaveBuffer e = bufferBytes buffer read) ↔
        (∀ c ∈ bufferBytes buffer read, isKept c) ∨
          ¬(fsFileSize file ≤ read ∧ Fits (bufferBytes buffer read))) := by
  set bytes := bufferBytes buffer read with hbytes
  refine (total_ite ..).2 ⟨fun hno => by simp [hm] at hno, fun _ => ?_⟩
  refine (total_bind_of_eq hopen).2 ((total_bind_of_eq hread).2 ((total_pure ..).2 ?_))
  have hloaded :
      (if (decide (read < fsFileSize file) || (editorLoadBytes editor bytes).truncated) = true then
        EditorStatus.trunc else .loaded) = .loaded ↔ fsFileSize file ≤ read ∧ Fits bytes := by
    rw [← loadBytes_truncated editor, ← not_lt]
    split_ifs with hcut
    · simpa [or_iff_not_imp_left] using hcut
    · simpa using hcut
  have hsave : Fits bytes → (editorBuildSaveBuffer (editorLoadBytes editor bytes) = bytes ↔
      ∀ c ∈ bytes, isKept c) := by
    intro hfits
    rw [save_loadBytes editor hfits]
    exact List.filter_eq_self
  have hmark : ∀ status, editorBuildSaveBuffer { editorLoadBytes editor bytes with
      dirty := false, status := status } = editorBuildSaveBuffer (editorLoadBytes editor bytes) :=
    fun status => save_congr rfl rfl
  dsimp only
  rw [← hbytes, hloaded, hmark]
  constructor
  · intro h
    by_cases hfits : fsFileSize file ≤ read ∧ Fits bytes
    · exact .inl ((hsave hfits.2).1 (h hfits))
    · exact .inr hfits
  · intro h hfits
    exact (hsave hfits.2).2 (h.resolve_right (not_not.2 hfits))

/-- An editor for the file "A", before it is opened. -/
def freshEditor : TextEditor := ⟨fun _ _ => 0, [0x41], 0, 0, .new, false, false⟩

/-- A file "A" with these bytes, and the editor that opened it. -/
def openedNote (bytes : List UInt8) : Prog Fs TextEditor := do
  let _ ← fsWrite tiny (some [0x41]) (some fun i => bytes.getD i 0) (.ofNat bytes.length)
    (fsWriteCreate ||| fsWriteTruncate)
  editorLoadFile tiny freshEditor fun _ => 0

/-- Two rows of text are saved as they were. -/
theorem loaded_saves_note :
    Total (fsWrite tiny (some [0x41]) (some fun i => [0x48, 0x0A, 0x69].getD i 0) 3
      (fsWriteCreate ||| fsWriteTruncate)) (Fs.start (blankDisk tiny) (fun _ => 0) [])
        fun ok s => ok = true →
    Total (editorLoadFile tiny freshEditor fun _ => 0) s fun e _ =>
      e.status = .loaded → editorBuildSaveBuffer e = [0x48, 0x0A, 0x69] := by
  refine (fsWrite_files tiny_geometry (wellFormed_tiny.ready _) (by decide)).mono ?_
  rintro ok s ⟨hr, hset, -⟩ rfl
  have hfile : files tiny [2] s.disk (freshEditor.filename.map upperAscii) =
      some [0x48, 0x0A, 0x69] := by
    refine (hset rfl).files_self.trans ?_
    rw [writtenBytes, if_neg (by decide), if_neg (by decide)]
    decide
  obtain ⟨r, s₁, hopen, file, rfl, hsize, hread⟩ := read_of_files tiny_geometry hr (by decide) hfile
  obtain ⟨⟨read, file', buffer⟩, s₂, hr₂, hcount, hbytes⟩ := hread (fun _ => 0) editorFileSize
  refine (loaded_saves_iff rfl hopen hr₂).mono fun e s₃ h => ?_
  have hall : bufferBytes buffer read = [0x48, 0x0A, 0x69] := by
    rw [hbytes, hcount]
    decide
  have hkept : ∀ c ∈ [(0x48 : UInt8), 0x0A, 0x69], isKept c = true := by
    simp only [List.mem_cons, List.not_mem_nil, or_false, forall_eq_or_imp, forall_eq]
    decide
  rw [hall] at h
  exact h.2 (.inl hkept)

/-- A carriage return and a line feed: the file is reported as loaded, and a save loses the return.
-/
theorem loaded_crlf_lost :
    Total (openedNote [0x0D, 0x0A]) (Fs.start (blankDisk tiny) (fun _ => 0) [])
    fun e s => files tiny [2] s.disk [0x41] = some [0x0D, 0x0A] ∧ e.status = .loaded ∧
      editorBuildSaveBuffer e = [0x0A] := by
  have hrun : (openedNote [0x0D, 0x0A] (Fs.start (blankDisk tiny) (fun _ => 0) [])).map (fun x =>
      (files tiny [2] x.2.disk [0x41], x.1.status, editorBuildSaveBuffer x.1)) =
        some (some [0x0D, 0x0A], .loaded, [0x0A]) := by decide +kernel
  obtain ⟨⟨e, s⟩, hm, h⟩ := Option.map_eq_some_iff.1 hrun
  simp only [Prod.mk.injEq] at h
  exact ⟨e, s, hm, h⟩

end MinervaOS.Apps
