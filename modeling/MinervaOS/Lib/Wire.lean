import Mathlib.Data.List.Basic
import Mathlib.Data.Option.Basic

/-!
# Wire formats

Big-endian numbers, vectors behind their length and domain names, and the parser that reads them
from the front of a message. `Reads p l a` says that `p` reads `a` off `l` whatever comes behind it,
so that the parser of a message is verified piece by piece, along the bytes that were written.
-/

namespace MinervaOS.Wire

def be16 (n : Nat) : List UInt8 := [UInt8.ofNat (n / 256), UInt8.ofNat n]

def be24 (n : Nat) : List UInt8 := [UInt8.ofNat (n / 65536), UInt8.ofNat (n / 256), UInt8.ofNat n]

def be32 (n : Nat) : List UInt8 :=
  [UInt8.ofNat (n / 16777216), UInt8.ofNat (n / 65536), UInt8.ofNat (n / 256), UInt8.ofNat n]

abbrev Parse (α : Type) := StateT (List UInt8) Option α

def take (n : Nat) : Parse (List UInt8) := fun l =>
  if n ≤ l.length then some (l.take n, l.drop n) else none

def u8 : Parse Nat
  | a :: l => some (a.toNat, l)
  | [] => none

def u16 : Parse Nat
  | a :: b :: l => some (a.toNat * 256 + b.toNat, l)
  | _ => none

def u24 : Parse Nat
  | a :: b :: c :: l => some (a.toNat * 65536 + b.toNat * 256 + c.toNat, l)
  | _ => none

def u32 : Parse Nat
  | a :: b :: c :: d :: l =>
      some (a.toNat * 16777216 + b.toNat * 65536 + c.toNat * 256 + d.toNat, l)
  | _ => none

/-- The next `n` bytes, which are left where they are. -/
def peek (n : Nat) : Parse (List UInt8) :=
  fun l => if n ≤ l.length then some (l.take n, l) else none

/-- All of a message. -/
def whole {α : Type} (p : Parse α) (l : List UInt8) : Option α :=
  match p l with
  | some (a, []) => some a
  | _ => none

/-- All of the next `n` bytes. -/
def within {α : Type} (n : Nat) (p : Parse α) : Parse α := do
  let bytes ← take n
  match whole p bytes with
  | some a => return a
  | none => failure

/-- One after the other, up to the end of the message. -/
def many {α : Type} (p : Parse α) : Nat → Parse (List α)
  | 0 => failure
  | n + 1 => do
    if (← get) = [] then return []
    let a ← p
    let rest ← many p n
    return a :: rest

/-- The labels of a name, up to the empty one. -/
def labels : Nat → Parse (List (List UInt8))
  | 0 => failure
  | n + 1 => do
    let length ← u8
    if length = 0 then return []
    if length > 63 then failure
    let label ← take length
    let rest ← labels n
    return label :: rest

def putLabels (ls : List (List UInt8)) : List UInt8 := ls.flatMap fun l => UInt8.ofNat l.length :: l

def putName (ls : List (List UInt8)) : List UInt8 := putLabels ls ++ [0]

/-- A name has as many bytes before its end as it has joined with dots, and one more. -/
theorem length_putLabels (dot : UInt8) : ∀ {ls : List (List UInt8)}, ls ≠ [] →
    (putLabels ls).length = ([dot].intercalate ls).length + 1
  | [], h => absurd rfl h
  | [l], _ => by simp [putLabels]
  | l :: l' :: ls, _ => by
    have ih := length_putLabels dot (List.cons_ne_nil l' ls)
    unfold putLabels at ih ⊢
    rw [List.flatMap_cons, List.length_append, ih, List.intercalate_cons_cons]
    simp only [List.length_append, List.length_cons, List.length_nil]
    omega

theorem length_le_putLabels {l : List UInt8} {ls : List (List UInt8)} (h : l ∈ ls) :
    l.length + 1 ≤ (putLabels ls).length := by
  induction ls with
  | nil => cases h
  | cons l' ls ih =>
    unfold putLabels at ih ⊢
    rw [List.flatMap_cons, List.length_append, List.length_cons]
    rcases List.mem_cons.1 h with rfl | h
    · omega
    · have := ih h
      omega

theorem length_le_length_putLabels : ∀ ls : List (List UInt8), ls.length ≤ (putLabels ls).length
  | [] => Nat.le_refl _
  | l :: ls => by
    have ih := length_le_length_putLabels ls
    unfold putLabels at ih ⊢
    rw [List.flatMap_cons, List.length_append, List.length_cons, List.length_cons]
    omega

/-! ## What is read -/

variable {α β : Type}

/-- `p` reads `a` off the bytes `l`, and leaves what comes behind them. -/
def Reads (p : Parse α) (l : List UInt8) (a : α) : Prop := ∀ rest, p (l ++ rest) = some (a, rest)

theorem Reads.pure (a : α) : Reads (pure a) [] a := fun _ => rfl

theorem Reads.bind {p : Parse α} {f : α → Parse β} {l l' : List UInt8} {a : α} {b : β}
    (h : Reads p l a)
    (h' : Reads (f a) l' b) : Reads (p >>= f) (l ++ l') b := by
  intro rest
  show (p (l ++ l' ++ rest)).bind _ = _
  rw [List.append_assoc, h]
  exact h' rest

theorem Reads.map {p : Parse α} {f : α → β} {l : List UInt8} {a : α} (h : Reads p l a) :
    Reads (do return f (← p)) l (f a) := by
  rw [← List.append_nil l]
  exact h.bind (f := fun a => Pure.pure (f a)) (.pure (f a))

/-- Nothing is read. -/
theorem Reads.bind_nil {p : Parse α} {f : α → Parse β} {l : List UInt8} {a : α} {b : β}
    (h : Reads p [] a)
    (h' : Reads (f a) l b) : Reads (p >>= f) l b := h.bind h'

theorem Reads.check {c : Prop} [Decidable c] (h : c) : Reads (guard c) [] () := by
  have hyes : (guard c : Parse Unit) = Pure.pure () := if_pos h
  rw [hyes]
  exact .pure ()

theorem Reads.take {n : Nat} {l : List UInt8} (h : l.length = n) : Reads (take n) l l := by
  intro rest
  unfold Wire.take
  rw [if_pos (by rw [List.length_append]; omega), ← h, List.take_left, List.drop_left]

theorem Reads.u8 {n : Nat} (h : n < 256) : Reads u8 [UInt8.ofNat n] n := by
  intro rest
  show some (_, rest) = _
  rw [UInt8.toNat_ofNat', Nat.mod_eq_of_lt h]

theorem Reads.u16 {n : Nat} (h : n < 65536) : Reads u16 (be16 n) n := by
  intro rest
  show some (_, rest) = _
  rw [UInt8.toNat_ofNat', UInt8.toNat_ofNat']
  have hsum : n / 256 % 2 ^ 8 * 256 + n % 2 ^ 8 = n := by omega
  rw [hsum]

theorem Reads.u24 {n : Nat} (h : n < 16777216) : Reads u24 (be24 n) n := by
  intro rest
  show some (_, rest) = _
  rw [UInt8.toNat_ofNat', UInt8.toNat_ofNat', UInt8.toNat_ofNat']
  have hsum : n / 65536 % 2 ^ 8 * 65536 + n / 256 % 2 ^ 8 * 256 + n % 2 ^ 8 = n := by omega
  rw [hsum]

theorem Reads.u32 {n : Nat} (h : n < 4294967296) : Reads u32 (be32 n) n := by
  intro rest
  show some (_, rest) = _
  rw [UInt8.toNat_ofNat', UInt8.toNat_ofNat', UInt8.toNat_ofNat', UInt8.toNat_ofNat']
  have hsum : n / 16777216 % 2 ^ 8 * 16777216 + n / 65536 % 2 ^ 8 * 65536 + n / 256 % 2 ^ 8 * 256 +
      n % 2 ^ 8 = n := by omega
  rw [hsum]

/-- What is peeked at is read again. -/
theorem Reads.peek_bind {n : Nat} {f : List UInt8 → Parse β} {l : List UInt8} {b : β}
    (hn : n ≤ l.length)
    (h : Reads (f (l.take n)) l b) : Reads (peek n >>= f) l b := by
  intro rest
  show (peek n (l ++ rest)).bind _ = _
  unfold peek
  rw [if_pos (by rw [List.length_append]; omega), List.take_append_of_le_length hn]
  exact h rest

theorem whole_of_reads {p : Parse α} {l : List UInt8} {a : α} (h : Reads p l a) :
    whole p l = some a := by
  have hrun := h []
  rw [List.append_nil] at hrun
  unfold whole
  rw [hrun]

theorem run_of_whole {p : Parse α} {l : List UInt8} {a : α} (h : whole p l = some a) :
    p l = some (a, []) := by
  unfold whole at h
  split at h
  · cases h
    assumption
  · cases h

theorem whole_map {p : Parse α} {l : List UInt8} {a : α} (f : α → β) (h : whole p l = some a) :
    whole (p >>= fun a => Pure.pure (f a)) l = some (f a) := by
  have hrun : (p >>= fun a => Pure.pure (f a)) l = some (f a, []) := by
    show (p l).bind _ = _
    rw [run_of_whole h]
    rfl
  unfold whole
  rw [hrun]

theorem Reads.within {p : Parse α} {n : Nat} {l : List UInt8} {a : α} (h : whole p l = some a)
    (hlen : l.length = n) : Reads (within n p) l a := by
  rw [← List.append_nil l]
  refine (Reads.take hlen).bind ?_
  rw [h]
  exact .pure a

/-- A message in pieces, each of which `p` reads. -/
theorem whole_many {p : Parse α} : ∀ {n : Nat} {pieces : List (List UInt8 × α)}, pieces.length < n →
    (∀ x ∈ pieces, x.1 ≠ [] ∧ Reads p x.1 x.2) →
    whole (many p n) (pieces.map Prod.fst).flatten = some (pieces.map Prod.snd)
  | n + 1, [], _, _ => rfl
  | n + 1, (l, a) :: pieces, hn, h => by
    obtain ⟨hne, hread⟩ := h _ (List.mem_cons_self ..)
    have ih := whole_many (Nat.lt_of_succ_lt_succ hn) fun x hx => h x (List.mem_cons_of_mem _ hx)
    have hrun : many p (n + 1) (l ++ (pieces.map Prod.fst).flatten) =
        (many p n >>= fun rest => pure (a :: rest)) (pieces.map Prod.fst).flatten := by
      show (if l ++ (pieces.map Prod.fst).flatten = [] then
        (Pure.pure [] : Parse (List α)) else _) _ = _
      rw [if_neg (by simp [hne])]
      show (p (l ++ (pieces.map Prod.fst).flatten)).bind _ = _
      rw [hread]
      rfl
    unfold whole
    rw [List.map_cons, List.flatten_cons, hrun]
    exact whole_map (fun rest => a :: rest) ih

theorem Reads.labels : ∀ {n : Nat} {ls : List (List UInt8)}, ls.length < n →
    (∀ l ∈ ls, 0 < l.length ∧ l.length ≤ 63) → Reads (labels n) (putName ls) ls
  | n + 1, [], _, _ => fun _ => rfl
  | n + 1, l :: ls, hn, h => by
    obtain ⟨hpos, hle⟩ := h l (List.mem_cons_self ..)
    have hput : putName (l :: ls) = [UInt8.ofNat l.length] ++ (l ++ putName ls) := by
      simp [putName, putLabels]
    rw [hput]
    refine (Reads.u8 (by omega)).bind ?_
    rw [if_neg (by omega), if_neg (by omega)]
    refine (Reads.take rfl).bind ?_
    exact (Reads.labels (Nat.lt_of_succ_lt_succ hn) fun l' hl' =>
      h l' (List.mem_cons_of_mem _ hl')).map

end MinervaOS.Wire
