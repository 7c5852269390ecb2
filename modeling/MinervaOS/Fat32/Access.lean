import MinervaOS.Fat32.Volume

/-!
# What an access does

Each function that reads or writes sectors is described by the state it returns in: what it did to
the disk, and, where it failed, that the driver refused its last access. On a reliable disk nothing
is refused, so there the failing branches are empty. A call is torn when the driver refused an
access of it after accepting a write of it.
-/

namespace MinervaOS.Fat32

open Prog

def Access.Wrote : Access → Prop
  | .write _ true => True
  | _ => False

def Access.Refused : Access → Prop
  | .read _ ok => ok = false
  | .write _ ok => ok = false

/-- `s'` comes after `s`; from a reliable disk nothing was refused on the way. -/
def Extends (s s' : Fs) : Prop :=
  ∃ as, s'.trace = as ++ s.trace ∧
    (s.faults = [] → s'.faults = [] ∧ ∀ a ∈ as, ¬a.Refused)

/-- The last access before `s'` was refused. -/
def Refused (s s' : Fs) : Prop :=
  s.faults ≠ [] ∧ ∃ a as, s'.trace = a :: (as ++ s.trace) ∧ a.Refused

/-- A write was accepted between `s` and `s'`. -/
def Dirty (s s' : Fs) : Prop := ∃ as, s'.trace = as ++ s.trace ∧ ∃ a ∈ as, a.Wrote

/-- An access was refused between `s` and `s'` after a write was accepted. -/
def Torn (s s' : Fs) : Prop :=
  ∃ later a earlier, s'.trace = later ++ a :: (earlier ++ s.trace) ∧ a.Refused ∧
    ∃ w ∈ earlier, w.Wrote

/-- Between `s` and `s'` the disk became `d` and no cluster was handed out. -/
structure Moves (s s' : Fs) (d : Disk) : Prop where
  ext : Extends s s'
  granted : s'.granted = s.granted
  disk : s'.disk = d

abbrev Reads (s s' : Fs) : Prop := Moves s s' s.disk

variable {s s' s'' : Fs} {d d' : Disk}

theorem Extends.refl (s : Fs) : Extends s s := ⟨[], rfl, fun h => ⟨h, by simp⟩⟩

theorem Extends.trans (h : Extends s s') (h' : Extends s' s'') : Extends s s'' := by
  obtain ⟨as, ht, hf⟩ := h
  obtain ⟨bs, ht', hf'⟩ := h'
  refine ⟨bs ++ as, by rw [ht', ht, List.append_assoc], fun hs => ?_⟩
  obtain ⟨hs', has⟩ := hf hs
  obtain ⟨hs'', hbs⟩ := hf' hs'
  refine ⟨hs'', fun a ha => ?_⟩
  rcases List.mem_append.1 ha with ha | ha
  · exact hbs a ha
  · exact has a ha

theorem Extends.reliable (h : Extends s s') (hs : s.faults = []) : s'.faults = [] := by
  obtain ⟨_, -, hf⟩ := h
  exact (hf hs).1

theorem Extends.not_torn (h : Extends s s') (hs : s.faults = []) : ¬Torn s s' := by
  rintro ⟨later, a, earlier, ht, ha, -⟩
  obtain ⟨as, ht', hf⟩ := h
  rw [ht', ← List.cons_append, ← List.append_assoc, List.append_cancel_right_eq] at ht
  exact (hf hs).2 a (by simp [ht]) ha

theorem Refused.of_extends (h : Extends s s') (h' : Refused s' s'') : Refused s s'' := by
  obtain ⟨as, ht, hf⟩ := h
  obtain ⟨hne, a, bs, ht', ha⟩ := h'
  exact ⟨fun hs => hne (hf hs).1, a, bs ++ as, by rw [ht', ht, List.append_assoc], ha⟩

theorem Refused.not_reliable (h : Refused s s') : s.faults ≠ [] := h.1

theorem Dirty.extends (h : Dirty s s') (h' : Extends s' s'') : Dirty s s'' := by
  obtain ⟨as, ht, w, hw, hww⟩ := h
  obtain ⟨bs, ht', -⟩ := h'
  exact ⟨bs ++ as, by rw [ht', ht, List.append_assoc], w, by simp [hw], hww⟩

theorem Dirty.of_extends (h : Extends s s') (h' : Dirty s' s'') : Dirty s s'' := by
  obtain ⟨as, ht, -⟩ := h
  obtain ⟨bs, ht', w, hw, hww⟩ := h'
  exact ⟨bs ++ as, by rw [ht', ht, List.append_assoc], w, by simp [hw], hww⟩

theorem Dirty.torn (h : Dirty s s') (h' : Refused s' s'') : Torn s s'' := by
  obtain ⟨as, ht, w, hw, hww⟩ := h
  obtain ⟨-, a, bs, ht', ha⟩ := h'
  exact ⟨[], a, bs ++ as, by simp [ht', ht], ha, w, by simp [hw], hww⟩

theorem Torn.of_extends (h : Extends s s') (h' : Torn s' s'') : Torn s s'' := by
  obtain ⟨as, ht, -⟩ := h
  obtain ⟨later, a, earlier, ht', ha, w, hw, hww⟩ := h'
  exact ⟨later, a, earlier ++ as, by rw [ht', ht, List.append_assoc], ha, w, by simp [hw], hww⟩

theorem Torn.extends (h : Torn s s') (h' : Extends s' s'') : Torn s s'' := by
  obtain ⟨later, a, earlier, ht, ha⟩ := h
  obtain ⟨bs, ht', -⟩ := h'
  exact ⟨bs ++ later, a, earlier, by rw [ht', ht, List.append_assoc], ha⟩

theorem Reads.refl (s : Fs) : Reads s s := ⟨.refl s, rfl, rfl⟩

theorem Moves.trans (h : Moves s s' d) (h' : Moves s' s'' d') : Moves s s'' d' :=
  ⟨h.ext.trans h'.ext, h'.granted.trans h.granted, h'.disk⟩

theorem Moves.reads (h : Moves s s' d) (h' : Reads s' s'') : Moves s s'' d :=
  ⟨h.ext.trans h'.ext, h'.granted.trans h.granted, h'.disk.trans h.disk⟩

/-! ## The driver -/

theorem ataReadSector_spec {lba : Nat} (hl : lba < 0x10000000) (s : Fs) :
    Total (ataReadSector lba) s fun ok s' => Reads s s' ∧
      (ok = true → s'.sector = s.disk lba) ∧ (ok = false → Refused s s') := by
  have hl' : ¬lba ≥ 0x10000000 := by omega
  simp only [ataReadSector, hl', if_false, total_bind, total_get, total_ite, total_set, total_pure]
  refine ⟨fun hf => ⟨⟨⟨[.read lba false], rfl, fun hs => ?_⟩, rfl, rfl⟩, by simp, fun _ => ?_⟩,
    fun hf => ⟨⟨⟨[.read lba true], rfl, fun hs => ?_⟩, rfl, rfl⟩, by simp, by simp⟩⟩
  · simp [hs] at hf
  · exact ⟨fun hs => by simp [hs] at hf, .read lba false, [], rfl, rfl⟩
  · exact ⟨by simp [hs], by simp [Access.Refused]⟩

/-- The disk after `sec` is written to sector `lba`. -/
def putSector (d : Disk) (lba : Nat) (sec : Sector) : Disk := fun x =>
  if x = lba then sec else d x

theorem ataWriteSector_spec {lba : Nat} (hl : lba < 0x10000000) (s : Fs) :
    Total (ataWriteSector lba) s fun ok s' =>
      (ok = true ∧ Moves s s' (putSector s.disk lba s.sector) ∧ Dirty s s') ∨
        (ok = false ∧ Reads s s' ∧ Refused s s') := by
  have hl' : ¬lba ≥ 0x10000000 := by omega
  simp only [ataWriteSector, hl', if_false, total_bind, total_get, total_ite, total_set, total_pure]
  refine ⟨fun hf => .inr ⟨by trivial, ⟨⟨[.write lba false], rfl, fun hs => ?_⟩, rfl, rfl⟩, ?_⟩,
    fun hf => .inl ⟨by trivial, ⟨⟨[.write lba true], rfl, fun hs => ?_⟩, rfl, rfl⟩, ?_⟩⟩
  · simp [hs] at hf
  · exact ⟨fun hs => by simp [hs] at hf, .write lba false, [], rfl, rfl⟩
  · exact ⟨by simp [hs], by simp [Access.Refused]⟩
  · exact ⟨[.write lba true], rfl, .write lba true, by simp, trivial⟩

theorem modifySector_spec (f : Sector → Sector) (s : Fs) :
    Total (modifySector f) s fun _ s' => Reads s s' ∧ s'.sector = f s.sector := by
  simp only [modifySector, total_modify]
  exact ⟨⟨⟨[], rfl, fun hs => ⟨hs, by simp⟩⟩, rfl, rfl⟩, trivial⟩

theorem putSector_edit {f : Sector → Sector} {lba : Nat} {sec : Sector}
    (h : sec = f (d lba)) : putSector d lba sec = editSector d lba f := by
  rw [h]
  rfl

/-- The last steps of a call: read a sector back, edit it, write it. -/
theorem edit_spec {lba : Nat} (hl : lba < 0x10000000) (f : Sector → Sector) (s : Fs) :
    Total (do
      if !(← ataReadSector lba) then return false
      modifySector f
      ataWriteSector lba) s fun ok s' =>
      (ok = true ∧ Moves s s' (editSector s.disk lba f) ∧ Dirty s s') ∨
        (ok = false ∧ Reads s s' ∧ Refused s s') := by
  simp only [total_bind]
  refine (ataReadSector_spec hl s).mono fun ok s₁ hread => ?_
  rcases hread with ⟨hr, hsec, hno⟩
  cases ok with
  | false => simpa using ⟨hr, hno rfl⟩
  | true =>
    simp only [Bool.not_true, Bool.false_eq_true, if_false, total_bind]
    refine (modifySector_spec f s₁).mono fun _ s₂ hedit => ?_
    rcases hedit with ⟨hr₂, hsec₂⟩
    have h₂ : Reads s s₂ := hr.reads hr₂
    have hput : putSector s₂.disk lba s₂.sector = editSector s.disk lba f := by
      rw [putSector_edit (by rw [hsec₂, hsec rfl, h₂.disk]), h₂.disk]
    refine (ataWriteSector_spec hl s₂).mono fun ok s₃ h => ?_
    rcases h with ⟨rfl, hm, hd⟩ | ⟨rfl, hm, hd⟩
    · exact .inl ⟨rfl, hput ▸ h₂.trans hm, hd.of_extends h₂.ext⟩
    · exact .inr ⟨rfl, h₂.reads hm, hd.of_extends h₂.ext⟩

end MinervaOS.Fat32
