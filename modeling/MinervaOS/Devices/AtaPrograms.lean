import MinervaOS.Devices.Ata
import MinervaOS.Fat32.Disk

/-!
# Programs over the disk

The file system works on a disk of whole sectors, with a schedule of the accesses that are refused.
Every program of accesses gets from the ports what it gets from such a disk: up to the first error
none is refused, and from then on all are, because the driver sends no command while the error of
the last one shows (`onPorts_onSectors`).
-/

namespace MinervaOS.Devices.Ata

open Fat32 (Fs Sector modifySector)
open Prog

/-! ## Accesses -/

inductive Call where
  | read (lba : UInt32)
  | write (lba : UInt32)

namespace Call

def lba : Call → UInt32
  | read lba => lba
  | write lba => lba

def onPorts : Call → Ports → Bool × Ports
  | read lba => ataReadSector lba
  | write lba => ataWriteSector lba

/-- The access to the file system's disk. -/
def onSectors : Call → Prog Fs Bool
  | read lba => Fat32.ataReadSector lba.toNat
  | write lba => Fat32.ataWriteSector lba.toNat

/-- What the file system records of it. -/
def access (ok : Bool) : Call → Fat32.Access
  | read lba => .read lba.toNat ok
  | write lba => .write lba.toNat ok

/-- What it does when it is not refused. -/
def taken (fs : Fs) : Call → Fs
  | read lba => { fs with sector := fs.disk lba.toNat }
  | write lba => { fs with disk := fun x => if x = lba.toNat then fs.sector else fs.disk x }

end Call

/-! ### Over sectors -/

section Sectors

variable (fs : Fs) (faults : List Bool) {c : Call}

def noted (entry : Fat32.Access) : Fs := { fs with trace := entry :: fs.trace }

def withFaults : Fs := { fs with faults }

theorem lba_ge (h : ¬c.lba < 0x10000000) : c.lba.toNat ≥ 0x10000000 := by
  simpa [UInt32.lt_iff_toNat_lt] using h

theorem not_lba_ge (h : c.lba < 0x10000000) : ¬c.lba.toNat ≥ 0x10000000 := by
  simpa [UInt32.lt_iff_toNat_lt] using h

theorem onSectors_outside (h : ¬c.lba < 0x10000000) : c.onSectors fs = some (false, fs) := by
  cases c with
  | read lba =>
    have hge : lba.toNat ≥ 0x10000000 := lba_ge h
    rw [Call.onSectors, Fat32.ataReadSector, if_pos hge]
    rfl
  | write lba =>
    have hge : lba.toNat ≥ 0x10000000 := lba_ge h
    rw [Call.onSectors, Fat32.ataWriteSector, if_pos hge]
    rfl

theorem onSectors_refused (h : c.lba < 0x10000000) :
    c.onSectors (withFaults fs (true :: faults)) =
      some (false, withFaults (noted fs (c.access false)) faults) := by
  cases c with
  | read lba =>
    have hge : ¬lba.toNat ≥ 0x10000000 := not_lba_ge h
    rw [Call.onSectors, Fat32.ataReadSector, if_neg hge]
    rfl
  | write lba =>
    have hge : ¬lba.toNat ≥ 0x10000000 := not_lba_ge h
    rw [Call.onSectors, Fat32.ataWriteSector, if_neg hge]
    rfl

theorem onSectors_taken (h : c.lba < 0x10000000) :
    c.onSectors (withFaults fs (false :: faults)) =
      some (true, withFaults (noted (c.taken fs) (c.access true)) faults) := by
  cases c with
  | read lba =>
    have hge : ¬lba.toNat ≥ 0x10000000 := not_lba_ge h
    rw [Call.onSectors, Fat32.ataReadSector, if_neg hge]
    rfl
  | write lba =>
    have hge : ¬lba.toNat ≥ 0x10000000 := not_lba_ge h
    rw [Call.onSectors, Fat32.ataWriteSector, if_neg hge]
    rfl

end Sectors

/-! ### Over the ports -/

/-- The bytes that the file system uses of a sector. -/
def block (sector : Sector) : Block := fun i => sector i

/-- The ports before an error, and the disk of whole sectors. -/
structure Sim (s : Ports) (fs : Fs) : Prop where
  settled : Settled s.drive
  error : s.drive.error = false
  prompt : Prompt s.drive.answers
  buffer : block fs.sector = s.buffer
  disk : ∀ x, block (fs.disk x) = s.drive.disk x

section Ports

variable {c : Call} {s : Ports} {fs : Fs}

theorem onPorts_outside (h : ¬c.lba < 0x10000000) : c.onPorts s = (false, s) := by
  have hge : c.lba ≥ 0x10000000 := by simpa using h
  cases c with
  | read lba => exact if_pos hge
  | write lba => exact if_pos hge

theorem onPorts_failed (hd : Settled s.drive) (herror : s.drive.error = true) :
    c.onPorts s = (false, s) := by
  cases c with
  | read lba => exact ataReadSector_failed hd herror
  | write lba => exact ataWriteSector_failed hd herror

theorem Prompt.drop {answers : ℕ → Answer} (h : Prompt answers) (used : ℕ) :
    Prompt fun n => answers (n + used) := ⟨fun _ => h.quick _, fun _ => h.late _⟩

theorem Sim.done {d : Drive} {disk : ℕ → Block} {used : ℕ} {buffer : Block} {fs' : Fs}
    (hsim : Sim s fs) (hdone : Done s.drive false disk used d)
    (hbuffer : block fs'.sector = buffer) (hdisk : ∀ x, block (fs'.disk x) = disk x) :
    Sim ⟨d, buffer⟩ fs' where
  settled := hdone.settled
  error := hdone.error
  prompt := hdone.answers ▸ hsim.prompt.drop used
  buffer := hbuffer
  disk := hdone.disk ▸ hdisk

/-- A call fails, and leaves all sectors but one, or does what it does to whole sectors. -/
theorem onPorts_settled (hsim : Sim s fs) (h : c.lba < 0x10000000) :
    (∃ d disk used torn, c.onPorts s = (false, ⟨d, s.buffer⟩) ∧ Done s.drive true disk used d ∧
      ∀ x, x ≠ torn → disk x = s.drive.disk x) ∨
    ∃ s', c.onPorts s = (true, s') ∧ Sim s' (c.taken fs) := by
  cases c with
  | read lba =>
    obtain ⟨d, heq, hdone⟩ :=
      ataReadSector_settled hsim.settled hsim.error h (hsim.prompt.quick 0)
    cases ha : (s.drive.answers 0).error with
    | true =>
      rw [ha] at heq hdone
      exact .inl ⟨d, _, _, 0, heq, hdone, fun _ _ => rfl⟩
    | false =>
      rw [ha] at heq hdone
      exact .inr ⟨_, heq, hsim.done hdone (hsim.disk _) hsim.disk⟩
  | write lba =>
    obtain ⟨error, disk, used, d, heq, hdone, hstored, hothers⟩ :=
      ataWriteSector_settled hsim.settled hsim.error h hsim.prompt
    cases error with
    | true => exact .inl ⟨d, disk, used, lba.toNat, heq, hdone, hothers⟩
    | false =>
      refine .inr ⟨_, heq, hsim.done hdone hsim.buffer fun x => ?_⟩
      rw [hstored rfl, Function.update_apply, Call.taken]
      dsimp only
      by_cases hx : x = lba.toNat
      · rw [if_pos hx, if_pos (show x = (Call.write lba).lba.toNat from hx)]
        exact hsim.buffer
      · rw [if_neg hx, if_neg (show ¬x = (Call.write lba).lba.toNat from hx)]
        exact hsim.disk x

end Ports

/-! ## Programs -/

/-- A program that reaches the disk by the two functions alone. It goes on by the results of its
calls and by what it finds in the buffer. -/
inductive Client (α : Type) where
  | done (a : α)
  | edit (f : Block → Block) (next : Client α)
  | call (c : Call) (next : Bool → Block → Client α)

namespace Client

variable {α : Type}

def onPorts : Client α → Ports → α × Ports
  | done a, s => (a, s)
  | edit f next, s => next.onPorts { s with buffer := f s.buffer }
  | call c next, s =>
    let (ok, s) := c.onPorts s
    (next ok s.buffer).onPorts s

def overwrite (b : Block) (sector : Sector) : Sector := fun i =>
  if h : i < 512 then b ⟨i, h⟩ else sector i

theorem block_overwrite (b : Block) (sector : Sector) : block (overwrite b sector) = b := by
  funext i
  exact dif_pos i.isLt

/-- The program over the file system's disk of whole sectors. -/
def onSectors : Client α → Prog Fs α
  | done a => pure a
  | edit f next => do
    modifySector fun sector => overwrite (f (block sector)) sector
    next.onSectors
  | call c next => do
    let ok ← c.onSectors
    (next ok (block (← get).sector)).onSectors

end Client

section Runs

open Client (overwrite block_overwrite)

variable {α : Type} {c : Call} {next : Bool → Block → Client α} {s s' : Ports} {fs fs' : Fs}
  {ok : Bool} {Q : α → Fs → Prop}

theorem onPorts_call (h : c.onPorts s = (ok, s')) :
    (Client.call c next).onPorts s = (next ok s'.buffer).onPorts s' := by
  rw [Client.onPorts, h]

theorem onSectors_call (h : c.onSectors fs = some (ok, fs')) :
    Total (Client.call c next).onSectors fs Q ↔
      Total (next ok (block fs'.sector)).onSectors fs' Q := by
  rw [Client.onSectors, total_bind_of_eq h, total_bind, total_get]

/-- The driver leaves a drive alone whose error shows. -/
theorem drive_failed (p : Client α) : ∀ {s : Ports}, Settled s.drive → s.drive.error = true →
    (p.onPorts s).2.drive = s.drive := by
  induction p with
  | done a => exact fun _ _ => rfl
  | edit f next ih => exact fun hd herror => ih (s := { drive := _, buffer := _ }) hd herror
  | call c next ih =>
    intro s hd herror
    rw [onPorts_call (onPorts_failed hd herror)]
    exact ih _ _ hd herror

/-- While an error shows, a program gets from the ports what it gets where every access is
refused. -/
theorem run_failed (p : Client α) : ∀ {s : Ports} (fs : Fs), Settled s.drive →
    s.drive.error = true → block fs.sector = s.buffer →
    ∃ rest, ∀ refused, rest ≤ refused →
      Total p.onSectors (withFaults fs (.replicate refused true)) fun a fs' =>
        a = (p.onPorts s).1 ∧ block fs'.sector = (p.onPorts s).2.buffer ∧ fs'.disk = fs.disk := by
  induction p with
  | done a =>
    intro s fs hd herror hbuffer
    exact ⟨0, fun refused _ => (total_pure ..).2 ⟨rfl, hbuffer, rfl⟩⟩
  | edit f next ih =>
    intro s fs hd herror hbuffer
    obtain ⟨rest, hrest⟩ := ih (s := { s with buffer := f s.buffer })
      { fs with sector := overwrite (f (block fs.sector)) fs.sector } hd herror
      (by rw [block_overwrite, hbuffer])
    exact ⟨rest, fun refused h => (total_bind ..).2 ((total_modify ..).2 (hrest refused h))⟩
  | call c next ih =>
    intro s fs hd herror hbuffer
    rw [onPorts_call (onPorts_failed hd herror)]
    by_cases h : c.lba < 0x10000000
    · obtain ⟨rest, hrest⟩ := ih false s.buffer (noted fs (c.access false)) hd herror hbuffer
      refine ⟨rest + 1, fun refused hle => ?_⟩
      obtain ⟨refused, rfl⟩ := Nat.exists_eq_add_of_le' hle
      rw [← Nat.add_assoc, List.replicate_succ, onSectors_call (onSectors_refused _ _ h)]
      exact hbuffer ▸ hrest _ (Nat.le_add_left ..)
    · obtain ⟨rest, hrest⟩ := ih false s.buffer fs hd herror hbuffer
      refine ⟨rest, fun refused hle => ?_⟩
      rw [onSectors_call (onSectors_outside _ h)]
      exact hbuffer ▸ hrest _ hle

/-- The two hold the same, but for one sector where there was an error. -/
structure Agrees (s : Ports) (fs : Fs) : Prop where
  buffer : block fs.sector = s.buffer
  disk : ∃ torn, ∀ x, (s.drive.error = true → x ≠ torn) → block (fs.disk x) = s.drive.disk x

theorem Sim.agrees (h : Sim s fs) : Agrees s fs := ⟨h.buffer, 0, fun x _ => h.disk x⟩

/-- The rest of a run after the access that has failed. -/
theorem run_after {d : Drive} {disk : ℕ → Block} {used torn : ℕ} (p : Client α) (hsim : Sim s fs)
    (hdone : Done s.drive true disk used d) (hdisk : ∀ x, x ≠ torn → disk x = s.drive.disk x)
    (entry : Fat32.Access) :
    (p.onPorts ⟨d, s.buffer⟩).2.drive.error = true ∧ ∃ rest, ∀ refused, rest ≤ refused →
      Total p.onSectors (withFaults (noted fs entry) (.replicate refused true)) fun a fs' =>
        a = (p.onPorts ⟨d, s.buffer⟩).1 ∧ Agrees (p.onPorts ⟨d, s.buffer⟩).2 fs' := by
  have hdrive : (p.onPorts ⟨d, s.buffer⟩).2.drive = d :=
    drive_failed (s := ⟨d, s.buffer⟩) p hdone.settled hdone.error
  refine ⟨(congrArg Drive.error hdrive).trans hdone.error, ?_⟩
  obtain ⟨rest, hrest⟩ := run_failed (s := ⟨d, s.buffer⟩) p (noted fs entry) hdone.settled
    hdone.error hsim.buffer
  refine ⟨rest, fun refused hle => (hrest refused hle).mono ?_⟩
  rintro a fs' ⟨ha, hbuffer, hsame⟩
  refine ⟨ha, hbuffer, torn, fun x hx => ?_⟩
  rw [hdrive] at hx ⊢
  rw [hsame, hdone.disk, hdisk x (hx hdone.error)]
  exact hsim.disk x

/-- A program gets from the ports what it gets from whole sectors, where the first accesses are
taken and all others refused. Without an error none is. -/
theorem onPorts_onSectors (p : Client α) : ∀ {s : Ports} (fs : Fs), Sim s fs →
    ∃ taken rest, ((p.onPorts s).2.drive.error = false → rest = 0) ∧ ∀ refused, rest ≤ refused →
      Total p.onSectors (withFaults fs (.replicate taken false ++ .replicate refused true))
        fun a fs' => a = (p.onPorts s).1 ∧ Agrees (p.onPorts s).2 fs' := by
  induction p with
  | done a =>
    intro s fs hsim
    exact ⟨0, 0, fun _ => rfl,
      fun refused _ => (total_pure ..).2 ⟨rfl, hsim.buffer, hsim.agrees.disk⟩⟩
  | edit f next ih =>
    intro s fs hsim
    obtain ⟨taken, rest, hnone, hrest⟩ := ih (s := { s with buffer := f s.buffer })
      { fs with sector := overwrite (f (block fs.sector)) fs.sector }
      { hsim with buffer := by rw [block_overwrite, hsim.buffer] }
    exact ⟨taken, rest, hnone,
      fun refused h => (total_bind ..).2 ((total_modify ..).2 (hrest refused h))⟩
  | call c next ih =>
    intro s fs hsim
    by_cases h : c.lba < 0x10000000
    · rcases onPorts_settled hsim h with
        ⟨d, disk, used, torn, heq, hdone, hothers⟩ | ⟨s', heq, hsim'⟩
      · obtain ⟨hfailed, rest, hrest⟩ :=
          run_after (next false s.buffer) hsim hdone hothers (c.access false)
        rw [onPorts_call heq]
        refine ⟨0, rest + 1, fun hok => absurd (hfailed.symm.trans hok) (by decide),
          fun refused hle => ?_⟩
        obtain ⟨refused, rfl⟩ := Nat.exists_eq_add_of_le' hle
        rw [← Nat.add_assoc, List.replicate_succ]
        refine (onSectors_call (onSectors_refused _ _ h)).2 ?_
        exact hsim.buffer ▸ hrest _ (Nat.le_add_left ..)
      · obtain ⟨taken, rest, hnone, hrest⟩ := ih true s'.buffer (s := s')
          (noted (c.taken fs) (c.access true)) { hsim' with }
        rw [onPorts_call heq]
        refine ⟨taken + 1, rest, hnone, fun refused hle => ?_⟩
        rw [List.replicate_succ, List.cons_append]
        refine (onSectors_call (onSectors_taken _ _ h)).2 ?_
        exact hsim'.buffer ▸ hrest refused hle
    · obtain ⟨taken, rest, hnone, hrest⟩ := ih false s.buffer fs hsim
      rw [onPorts_call (onPorts_outside h)]
      refine ⟨taken, rest, hnone, fun refused hle => ?_⟩
      rw [onSectors_call (onSectors_outside _ h)]
      exact hsim.buffer ▸ hrest refused hle

end Runs

/-- One sector is copied to another one. -/
def copyClient : Client Bool :=
  .call (.read 5) fun ok b =>
    if ok then .edit (fun _ => b) (.call (.write 9) fun ok _ => .done ok) else .done false

def steadyPorts : Ports := ⟨steadyDrive [] 5, fun _ => 0⟩

def steadyFs : Fs := ⟨fun _ _ => 7, fun _ => 0, [], [], []⟩

theorem onPorts_onSectors_copy :
    ∃ taken rest, ((copyClient.onPorts steadyPorts).2.drive.error = false → rest = 0) ∧
      ∀ refused, rest ≤ refused →
        Total copyClient.onSectors (withFaults steadyFs
          (.replicate taken false ++ .replicate refused true)) fun a fs' =>
            a = (copyClient.onPorts steadyPorts).1 ∧
              Agrees (copyClient.onPorts steadyPorts).2 fs' :=
  onPorts_onSectors copyClient steadyFs
    { settled := ⟨rfl, rfl⟩
      error := rfl
      prompt := ⟨fun _ => show 5 < 100000 by decide, fun _ _ => show 4 < 5 by decide⟩
      buffer := rfl
      disk := fun _ => rfl }

end MinervaOS.Devices.Ata
