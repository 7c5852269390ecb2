import MinervaOS.Lib.Fifo
import MinervaOS.Lib.Thread
import Mathlib.Data.List.Chain

/-!
# The keys that have been typed

The keyboard handler puts characters into `kb_buffer`, and the desktop takes them out. The handler
may run before every access of the desktop to the two indices.
-/

namespace MinervaOS.Devices

def kbBufferSize : ℕ := 64

def scancodeMap : List UInt8 :=
  [0, 27, 49, 50, 51, 52, 53, 54, 55, 56, 57, 48, 45, 61, 8,
    9, 113, 119, 101, 114, 116, 121, 117, 105, 111, 112, 91, 93, 10,
    0, 97, 115, 100, 102, 103, 104, 106, 107, 108, 59, 39, 96,
    0, 92, 122, 120, 99, 118, 98, 110, 109, 44, 46, 47, 0,
    42, 0, 32]

/-- The buffer with its indices, and the characters that have been put into it so far. -/
structure Keyboard where
  kbBuffer : ℕ → UInt8
  kbHead : ℕ
  kbTail : ℕ
  typed : List UInt8

def Keyboard.reset : Keyboard := ⟨fun _ => 0, 0, 0, []⟩

/-- The handler for a byte from the port. -/
def keyboardIrqHandler (scancode : UInt8) (s : Keyboard) : Keyboard :=
  if scancode &&& 0x80 != 0 then s
  else if scancode ≥ 128 then s
  else
    let c := scancodeMap.getD scancode.toNat 0
    if c == 0 then s
    else
      let nextHead := (s.kbHead + 1) % kbBufferSize
      if nextHead ≠ s.kbTail then
        { s with
          kbBuffer := Function.update s.kbBuffer s.kbHead c
          kbHead := nextHead
          typed := s.typed ++ [c] }
      else s

/-- The handler runs with interrupts off. -/
inductive Irq : Keyboard → Keyboard → Prop
  | handle (scancode : UInt8) (s : Keyboard) : Irq s (keyboardIrqHandler scancode s)

abbrev KeyThread := Thread Unit Keyboard

open Thread (read write)

def keyboardHasKey : KeyThread Bool := do
  let head ← read () fun s => s.kbHead
  let tail ← read () fun s => s.kbTail
  return head != tail

/-- `keyboard_read_key` behind its loop. -/
def takeKey : KeyThread (Option UInt8) := do
  let tail ← read () fun s => s.kbTail
  let c ← read () fun s => s.kbBuffer tail
  let tail ← read () fun s => s.kbTail
  write () fun s => { s with kbTail := (tail + 1) % kbBufferSize }
  return some c

/-- `keyboard_read_key`, where `spins` bounds how often the loop looks at the indices. -/
def keyboardReadKey : ℕ → KeyThread (Option UInt8)
  | 0 => return none
  | spins + 1 => do
    let head ← read () fun s => s.kbHead
    let tail ← read () fun s => s.kbTail
    if head == tail then keyboardReadKey spins else takeKey

/-! ## The queue -/

/-- The character of a scancode. -/
def keyOf (scancode : UInt8) : Option UInt8 :=
  if scancode &&& 0x80 != 0 then none
  else if scancodeMap.getD scancode.toNat 0 == 0 then none
  else some (scancodeMap.getD scancode.toNat 0)

open Fifo (Ring)

variable {s s' : Keyboard} {keys queue : List UInt8}

/-- The keys that have been typed are those that have been read, and the queue. -/
structure Queued (keys queue : List UInt8) (s : Keyboard) : Prop where
  ring : Ring kbBufferSize s.kbBuffer s.kbHead s.kbTail queue
  typed : s.typed = keys ++ queue

/-- The second test of the handler comes to the same as the first. -/
theorem released_of_ge {scancode : UInt8} (h : scancode ≥ 128) : (scancode &&& 0x80 != 0) = true := by
  have hall : ∀ n : Fin 256, 128 ≤ n.val → (UInt8.ofNat n &&& 0x80 != 0) = true := by decide +kernel
  have hthis := hall ⟨scancode.toNat, scancode.toNat_lt⟩ (UInt8.le_iff_toNat_le.1 h)
  rwa [UInt8.ofNat_toNat] at hthis

theorem queued_reset : Queued [] [] .reset := ⟨Fifo.ring_nil _ (by decide), rfl⟩

theorem Queued.irq (h : Queued keys queue s) (scancode : UInt8) :
    Queued keys (queue ++ if queue.length < 63 then (keyOf scancode).toList else [])
        (keyboardIrqHandler scancode s) ∧
      (keyboardIrqHandler scancode s).kbTail = s.kbTail := by
  have hnone : keyOf scancode = none → keyboardIrqHandler scancode s = s →
      Queued keys (queue ++ if queue.length < 63 then (keyOf scancode).toList else [])
        (keyboardIrqHandler scancode s) ∧
      (keyboardIrqHandler scancode s).kbTail = s.kbTail := fun hkey hsame => by
    rw [hkey, hsame, Option.toList_none, ite_self, List.append_nil]
    exact ⟨h, rfl⟩
  by_cases hrelease : (scancode &&& 0x80 != 0) = true
  · exact hnone (if_pos hrelease) (if_pos hrelease)
  have hsmall : ¬scancode ≥ 128 := fun hlarge => hrelease (released_of_ge hlarge)
  by_cases hzero : (scancodeMap.getD scancode.toNat 0 == 0) = true
  · refine hnone ?_ ?_
    · rw [keyOf, if_neg hrelease, if_pos hzero]
    · rw [keyboardIrqHandler, if_neg hrelease, if_neg hsmall]
      exact if_pos hzero
  have hkey : keyOf scancode = some (scancodeMap.getD scancode.toNat 0) := by
    rw [keyOf, if_neg hrelease, if_neg hzero]
  have hfull := h.ring.full_iff
  rw [hkey, keyboardIrqHandler, if_neg hrelease, if_neg hsmall]
  dsimp only
  rw [if_neg hzero]
  by_cases hroom : (s.kbHead + 1) % kbBufferSize = s.kbTail
  · have hlength := hfull.1 hroom
    rw [if_neg (not_not_intro hroom), if_neg (by rw [kbBufferSize] at hlength; omega),
      List.append_nil]
    exact ⟨h, rfl⟩
  · have hlt := h.ring.length_lt
    have hnot := (not_congr hfull).1 hroom
    rw [kbBufferSize] at hlt hnot
    rw [if_pos hroom, if_pos (by omega), Option.toList_some]
    exact ⟨⟨h.ring.push hroom _, by rw [h.typed, List.append_assoc]⟩, rfl⟩

/-! ## What a call does -/

/-- The desktop has read `keys`, and is at the slot `tail`. -/
def Reading (keys : List UInt8) (tail : ℕ) (s : Keyboard) : Prop :=
  (∃ queue, Queued keys queue s) ∧ s.kbTail = tail

/-- The key `c` is next. -/
def Next (keys : List UInt8) (c : UInt8) (tail : ℕ) (s : Keyboard) : Prop :=
  (∃ queue, Queued keys (c :: queue) s) ∧ s.kbTail = tail

open Thread (Stable holds_read holds_write holds_pure)

abbrev Yields {α : Type} (t : KeyThread α) (Q : α → Keyboard → Prop) (s : Keyboard) : Prop :=
  t.Holds Irq (fun _ _ => True) Q s

theorem reading_stable (keys : List UInt8) (tail : ℕ) : Stable Irq (Reading keys tail) := by
  rintro s _ ⟨⟨queue, h⟩, htail⟩ ⟨scancode, _⟩
  obtain ⟨hqueued, hsame⟩ := h.irq scancode
  exact ⟨⟨_, hqueued⟩, hsame.trans htail⟩

theorem next_stable (keys : List UInt8) (c : UInt8) (tail : ℕ) :
    Stable Irq (Next keys c tail) := by
  rintro s _ ⟨⟨queue, h⟩, htail⟩ ⟨scancode, _⟩
  obtain ⟨hqueued, hsame⟩ := h.irq scancode
  exact ⟨⟨_, hqueued⟩, hsame.trans htail⟩

variable {c : UInt8} {tail : ℕ}

theorem Next.reading (h : Next keys c tail s) : Reading keys tail s := ⟨⟨_, h.1.choose_spec⟩, h.2⟩

theorem Reading.next (h : Reading keys tail s) (hne : s.kbHead ≠ tail) :
    ∃ c, Next keys c tail s := by
  obtain ⟨⟨queue, hqueued⟩, rfl⟩ := h
  cases queue with
  | nil => exact absurd (hqueued.ring.head_eq_tail_iff.2 rfl) hne
  | cons c queue => exact ⟨c, ⟨queue, hqueued⟩, rfl⟩

theorem Next.head_ne (h : Next keys c tail s) : s.kbHead ≠ tail := by
  obtain ⟨⟨queue, hqueued⟩, rfl⟩ := h
  exact fun heq => absurd (hqueued.ring.head_eq_tail_iff.1 heq) (List.cons_ne_nil _ _)

theorem Next.take (h : Next keys c tail s) :
    Reading (keys ++ [c]) ((tail + 1) % kbBufferSize)
      { s with kbTail := (tail + 1) % kbBufferSize } := by
  obtain ⟨⟨queue, hqueued⟩, rfl⟩ := h
  refine ⟨⟨queue, hqueued.ring.pop, ?_⟩, rfl⟩
  rw [List.append_assoc]
  exact hqueued.typed

theorem takeKey_does (h : Next keys c tail s) :
    Yields takeKey (fun r s => r = some c ∧ ∃ tail, Reading (keys ++ [c]) tail s) s := by
  have hstable := next_stable keys c tail
  unfold takeKey
  refine Thread.Holds.seq (holds_read (R := fun t s => Next keys c tail s ∧ t = tail) hstable
    (fun _ => hstable.and (.const _)) (fun _ _ => trivial) (fun _ hs => ⟨hs, hs.2⟩) h)
    fun t s hs => ?_
  obtain ⟨hs, rfl⟩ := hs
  refine Thread.Holds.seq (holds_read (R := fun a s => Next keys c t s ∧ a = c) hstable
    (fun _ => hstable.and (.const _)) (fun _ _ => trivial) (fun s hs => ⟨hs, ?_⟩) hs)
    fun a s hs => ?_
  · obtain ⟨⟨queue, hqueued⟩, rfl⟩ := hs
    exact hqueued.ring.first
  obtain ⟨hs, rfl⟩ := hs
  refine Thread.Holds.seq (holds_read (R := fun t' s => Next keys a t s ∧ t' = t) hstable
    (fun _ => hstable.and (.const _)) (fun _ _ => trivial) (fun _ hs => ⟨hs, hs.2⟩) hs)
    fun t' s hs => ?_
  obtain ⟨hs, rfl⟩ := hs
  refine Thread.Holds.seq (holds_write hstable (reading_stable _ _) (fun _ _ => trivial)
    (fun _ hs => hs.take) hs) fun _ s hs => ?_
  exact holds_pure (Stable.and (.const _) (Stable.exists fun _ => reading_stable _ _))
    ⟨rfl, _, hs⟩

/-- What is known once the head has been read: a queue that was not empty stays so. -/
def Looked (keys : List UInt8) (tail head : ℕ) (s : Keyboard) : Prop :=
  Reading keys tail s ∧ (head ≠ tail → ∃ c, Next keys c tail s)

theorem looked_stable (keys : List UInt8) (tail head : ℕ) : Stable Irq (Looked keys tail head) :=
  (reading_stable keys tail).and (Stable.exists fun _ => next_stable keys _ tail).imp

theorem hasKey_does (h : Reading keys tail s) :
    Yields keyboardHasKey
      (fun b s => Reading keys tail s ∧ (b = true → ∃ c, Next keys c tail s)) s := by
  have hlooked := looked_stable keys tail
  unfold keyboardHasKey
  refine Thread.Holds.seq (holds_read (R := Looked keys tail) (reading_stable keys tail) hlooked
    (fun _ _ => trivial) (fun _ hs => ⟨hs, hs.next⟩) h) fun head s hs => ?_
  refine Thread.Holds.seq (holds_read (R := fun t s => Looked keys tail head s ∧ t = tail)
    (hlooked head) (fun _ => (hlooked head).and (.const _)) (fun _ _ => trivial)
    (fun _ hs => ⟨hs, hs.1.2⟩) hs) fun t s hs => ?_
  obtain ⟨hs, rfl⟩ := hs
  refine holds_pure ((reading_stable _ _).and (Stable.exists fun _ => next_stable _ _ _).imp)
    ⟨hs.1, fun hne => hs.2 (by simpa using hne)⟩

/-- Where a key waits, the answer is yes. -/
theorem hasKey_next (h : Next keys c tail s) :
    Yields keyboardHasKey (fun b s => b = true ∧ Next keys c tail s) s := by
  have hstable := next_stable keys c tail
  unfold keyboardHasKey
  refine Thread.Holds.seq (holds_read (R := fun head s => Next keys c tail s ∧ head ≠ tail) hstable
    (fun _ => hstable.and (.const _)) (fun _ _ => trivial) (fun _ hs => ⟨hs, hs.head_ne⟩) h)
    fun head s hs => ?_
  obtain ⟨hs, hne⟩ := hs
  refine Thread.Holds.seq (holds_read (R := fun t s => Next keys c tail s ∧ t = tail) hstable
    (fun _ => hstable.and (.const _)) (fun _ _ => trivial) (fun _ hs => ⟨hs, hs.2⟩) hs)
    fun t s hs => ?_
  obtain ⟨hs, rfl⟩ := hs
  exact holds_pure (Stable.and (.const _) hstable) ⟨by simpa using hne, hs⟩

/-- The loop looks as `keyboard_has_key` does. -/
theorem keyboardReadKey_succ (spins : ℕ) : keyboardReadKey (spins + 1) =
    keyboardHasKey >>= fun waits => if waits then takeKey else keyboardReadKey spins := by
  refine congrArg (Thread.access () id) (funext fun s => ?_)
  refine congrArg (Thread.access () id) (funext fun s' => ?_)
  show (if (s.kbHead == s'.kbTail) = true then keyboardReadKey spins else takeKey) =
    if (s.kbHead != s'.kbTail) = true then takeKey else keyboardReadKey spins
  cases heq : s.kbHead == s'.kbTail <;> simp [bne, heq]

theorem readKey_does (spins : ℕ) : ∀ {s : Keyboard}, Reading keys tail s →
    Yields (keyboardReadKey spins) (fun r s => ∃ tail, Reading (keys ++ r.toList) tail s) s := by
  induction spins with
  | zero =>
    intro s h
    refine holds_pure (Stable.exists fun _ => reading_stable _ _) ⟨tail, ?_⟩
    rwa [Option.toList_none, List.append_nil]
  | succ spins ih =>
    intro s h
    rw [keyboardReadKey_succ]
    refine Thread.Holds.seq (hasKey_does h) fun waits s hs => ?_
    cases waits with
    | false => exact ih hs.1
    | true =>
      obtain ⟨c, hnext⟩ := hs.2 rfl
      refine (takeKey_does hnext).mono fun r s hs => ?_
      obtain ⟨rfl, hs⟩ := hs
      exact hs

/-- A key that waits is returned at the first look. -/
theorem readKey_next (spins : ℕ) (h : Next keys c tail s) :
    Yields (keyboardReadKey (spins + 1))
      (fun r s => r = some c ∧ ∃ tail, Reading (keys ++ [c]) tail s) s := by
  rw [keyboardReadKey_succ]
  refine Thread.Holds.seq (hasKey_next h) fun waits s hs => ?_
  obtain ⟨rfl, hs⟩ := hs
  exact takeKey_does hs

/-! ## Runs -/

inductive KeyCall where
  | hasKey
  | readKey (spins : ℕ)

inductive KeyAnswer where
  | waits (yes : Bool)
  | key (c : Option UInt8)

def KeyCall.code : KeyCall → KeyThread KeyAnswer
  | .hasKey => do return .waits (← keyboardHasKey)
  | .readKey spins => do return .key (← keyboardReadKey spins)

def KeyAnswer.read : KeyAnswer → Option UInt8
  | .waits _ => none
  | .key c => c

abbrev KeyLog := List (KeyCall × Keyboard × KeyAnswer)

/-- The keys that the calls have returned. -/
def keysRead (log : KeyLog) : List UInt8 := log.filterMap fun e => e.2.2.read

/-- A call of `keyboard_read_key` behind one of `keyboard_has_key` that said yes gets a key when it
first looks. -/
def Prompt (e e' : KeyCall × Keyboard × KeyAnswer) : Prop :=
  e.2.2 = .waits true → ∀ spins, e'.1 = .readKey (spins + 1) → ∃ c, e'.2.2 = .key (some c)

/-- Between two calls, with the keys that have been read. -/
structure Typed (log : KeyLog) (s : Keyboard) : Prop where
  reading : ∃ tail, Reading (keysRead log) tail s
  waiting : (log.getLast?.map fun e => e.2.2) = some (.waits true) →
    ∃ c tail, Next (keysRead log) c tail s
  prompt : log.IsChain Prompt

theorem typed_stable (log : KeyLog) : Stable Irq (Typed log) := by
  intro s s' h hstep
  refine ⟨?_, fun hlast => ?_, h.prompt⟩
  · exact Stable.exists (fun _ => reading_stable _ _) s s' h.reading hstep
  · exact Stable.exists (fun _ => Stable.exists fun _ => next_stable _ _ _) s s' (h.waiting hlast)
      hstep

theorem keysRead_append (log : KeyLog) (k : KeyCall) (s : Keyboard) (a : KeyAnswer) :
    keysRead (log ++ [(k, s, a)]) = keysRead log ++ a.read.toList := by
  rw [keysRead, List.filterMap_append]
  cases h : a.read <;> simp [keysRead, h]

theorem Typed.append {log : KeyLog} {k : KeyCall} {s₀ : Keyboard} {a : KeyAnswer}
    (hchain : log.IsChain Prompt) (hprompt : ∀ e, log.getLast? = some e → Prompt e (k, s₀, a))
    (hreading : ∃ tail, Reading (keysRead log ++ a.read.toList) tail s)
    (hwaiting : a = .waits true → ∃ c tail, Next (keysRead log) c tail s) :
    Typed (log ++ [(k, s₀, a)]) s := by
  refine ⟨?_, fun hlast => ?_, ?_⟩
  · rwa [keysRead_append]
  · rw [List.getLast?_append] at hlast
    obtain rfl : a = .waits true := by simpa using hlast
    rw [keysRead_append, KeyAnswer.read, Option.toList_none, List.append_nil]
    exact hwaiting rfl
  · rw [List.isChain_append]
    refine ⟨hchain, List.isChain_singleton _, fun e he e' he' => ?_⟩
    obtain rfl : (k, s₀, a) = e' := by simpa using he'
    exact hprompt e he

theorem hasKey_typed {log : KeyLog} (h : Typed log s) :
    Yields KeyCall.hasKey.code (fun a s' => Typed (log ++ [(.hasKey, s, a)]) s') s := by
  obtain ⟨tail, hreading⟩ := h.reading
  refine Thread.Holds.seq (hasKey_does hreading) fun b s' hs => ?_
  refine holds_pure (typed_stable _) (Typed.append h.prompt (fun e _ _ spins hcall => by cases hcall)
    ⟨tail, ?_⟩ fun hyes => ?_)
  · rw [KeyAnswer.read, Option.toList_none, List.append_nil]
    exact hs.1
  · obtain rfl : b = true := by simpa using hyes
    obtain ⟨c, hnext⟩ := hs.2 rfl
    exact ⟨c, tail, hnext⟩

theorem readKey_typed {log : KeyLog} (h : Typed log s) (spins : ℕ) :
    Yields (KeyCall.readKey spins).code
      (fun a s' => Typed (log ++ [(.readKey spins, s, a)]) s') s := by
  have hlater : ∀ r s', (∃ tail, Reading (keysRead log ++ r.toList) tail s') →
      (∀ e, log.getLast? = some e → Prompt e (.readKey spins, s, .key r)) →
        Yields (pure (KeyAnswer.key r)) (fun a s' => Typed (log ++ [(.readKey spins, s, a)]) s') s' :=
    fun r s' hreading hprompt => holds_pure (typed_stable _)
      (Typed.append h.prompt hprompt hreading fun hyes => by cases hyes)
  by_cases hlast : (log.getLast?.map fun e => e.2.2) = some (.waits true) ∧ spins ≠ 0
  · obtain ⟨c, tail, hnext⟩ := h.waiting hlast.1
    obtain ⟨spins, rfl⟩ := Nat.exists_eq_succ_of_ne_zero hlast.2
    refine Thread.Holds.seq (readKey_next spins hnext) fun r s' hs => ?_
    obtain ⟨rfl, hs⟩ := hs
    exact hlater _ _ hs fun _ _ _ _ _ => ⟨c, rfl⟩
  · obtain ⟨tail, hreading⟩ := h.reading
    refine Thread.Holds.seq (readKey_does spins hreading) fun r s' hs => hlater r s' hs ?_
    intro e he hyes n hcall
    obtain rfl : spins = n + 1 := by simpa using hcall
    exact absurd ⟨by rw [he, Option.map_some, hyes], n.succ_ne_zero⟩ hlast

/-- In every run, with the handler before any access of the desktop, the keys that have been typed
are those that the calls have returned and those that still wait, each once and in order. A further
key is dropped where 63 wait, and only there. A read that follows an answer that a key waits does
not look twice. -/
theorem keys_delivered {m : Thread.Machine Unit KeyCall Keyboard KeyAnswer}
    (hrun : Thread.Reaches Irq KeyCall.code (Thread.start .reset) m) :
    m.log.IsChain Prompt ∧ (m.running = none → ∃ queue : List UInt8,
      m.shared.typed = keysRead m.log ++ queue ∧ queue.length ≤ 63 ∧
        ∀ scancode, (keyboardIrqHandler scancode m.shared).typed =
          m.shared.typed ++ if queue.length < 63 then (keyOf scancode).toList else []) := by
  have hstart : Typed [] Keyboard.reset :=
    ⟨⟨0, ⟨[], queued_reset⟩, rfl⟩, fun hlast => (by cases hlast), .nil⟩
  have hkept := hrun.kept (I := Typed) typed_stable (fun k log s h => by
    cases k with
    | hasKey => exact hasKey_typed h
    | readKey spins => exact readKey_typed h spins) hstart
  refine ⟨?_, fun hnone => ?_⟩
  · cases hrunning : m.running with
    | none => exact (hkept.1 hrunning).prompt
    | some call => exact (hkept.2 call.1 call.2.1 call.2.2 hrunning).1.prompt
  · obtain ⟨tail, ⟨queue, hqueued⟩, -⟩ := (hkept.1 hnone).reading
    refine ⟨queue, hqueued.typed, Nat.le_of_lt_succ hqueued.ring.length_lt, fun scancode => ?_⟩
    rw [(hqueued.irq scancode).1.typed, hqueued.typed, List.append_assoc]

/-- The key "a", pressed before any call. -/
theorem keys_delivered_a : ∃ queue : List UInt8,
    (keyboardIrqHandler 0x1E .reset).typed = keysRead [] ++ queue ∧ queue.length ≤ 63 ∧
      ∀ scancode, (keyboardIrqHandler scancode (keyboardIrqHandler 0x1E .reset)).typed =
        (keyboardIrqHandler 0x1E .reset).typed ++
          if queue.length < 63 then (keyOf scancode).toList else [] :=
  (keys_delivered (m := ⟨keyboardIrqHandler 0x1E .reset, none, []⟩)
    (.single (.other (.handle 0x1E _)))).2 rfl

end MinervaOS.Devices
