import MinervaOS.Crypto.GcmLoops

/-!
# The cipher in its buffers

`aes128_encrypt_block` and what it calls with the state and the round keys in buffers that they
write byte by byte: the rows move through one byte, each column is mixed over itself, and the key
grows by four bytes at the offset `bytes` of 8 bits. They leave what the functions over whole lists
make (`encryptBlock_eq`).
-/

namespace MinervaOS.Crypto

namespace AesInPlace

open BlockBuffer (writeFrom)

def aesAddRoundKey (state roundKey : List UInt8) : List UInt8 :=
  (List.range 16).foldl (fun state i => state.set i (state.getD i 0 ^^^ roundKey.getD i 0)) state

def aesSubBytes (state : List UInt8) : List UInt8 :=
  (List.range 16).foldl (fun state i => state.set i (aesSbox.getD (state.getD i 0).toNat 0)) state

def aesShiftRows (s : List UInt8) : List UInt8 :=
  let t := s.getD 1 0
  let s := s.set 1 (s.getD 5 0)
  let s := s.set 5 (s.getD 9 0)
  let s := s.set 9 (s.getD 13 0)
  let s := s.set 13 t
  let t := s.getD 2 0
  let s := s.set 2 (s.getD 10 0)
  let s := s.set 10 t
  let t := s.getD 6 0
  let s := s.set 6 (s.getD 14 0)
  let s := s.set 14 t
  let t := s.getD 15 0
  let s := s.set 15 (s.getD 11 0)
  let s := s.set 11 (s.getD 7 0)
  let s := s.set 7 (s.getD 3 0)
  s.set 3 t

/-- One pass of the loop of `aes_mix_columns`, for the column at `a`. -/
def mixColumnAt (s : List UInt8) (a : ℕ) : List UInt8 :=
  let t := s.getD a 0 ^^^ s.getD (a + 1) 0 ^^^ s.getD (a + 2) 0 ^^^ s.getD (a + 3) 0
  let u := s.getD a 0
  let s := s.set a (s.getD a 0 ^^^ (t ^^^ aesXtime (s.getD a 0 ^^^ s.getD (a + 1) 0)))
  let s := s.set (a + 1)
    (s.getD (a + 1) 0 ^^^ (t ^^^ aesXtime (s.getD (a + 1) 0 ^^^ s.getD (a + 2) 0)))
  let s := s.set (a + 2)
    (s.getD (a + 2) 0 ^^^ (t ^^^ aesXtime (s.getD (a + 2) 0 ^^^ s.getD (a + 3) 0)))
  s.set (a + 3) (s.getD (a + 3) 0 ^^^ (t ^^^ aesXtime (s.getD (a + 3) 0 ^^^ u)))

def aesMixColumns (s : List UInt8) : List UInt8 :=
  (List.range 4).foldl (fun s c => mixColumnAt s (c * 4)) s

/-! ## The round keys -/

def rcon : List UInt8 := [0x01, 0x02, 0x04, 0x08, 0x10, 0x20, 0x40, 0x80, 0x1B, 0x36]

/-- The four bytes before `bytes`, in `tmp`. -/
def lastWord (roundKeys : List UInt8) (bytes : UInt8) (tmp : List UInt8) : List UInt8 :=
  (List.range 4).foldl (fun tmp i => tmp.set i (roundKeys.getD (bytes.toNat - 4 + i) 0)) tmp

def rotateAndSub (constant : UInt8) (tmp : List UInt8) : List UInt8 :=
  let t := tmp.getD 0 0
  let tmp := tmp.set 0 (aesSbox.getD (tmp.getD 1 0).toNat 0 ^^^ constant)
  let tmp := tmp.set 1 (aesSbox.getD (tmp.getD 2 0).toNat 0)
  let tmp := tmp.set 2 (aesSbox.getD (tmp.getD 3 0).toNat 0)
  tmp.set 3 (aesSbox.getD t.toNat 0)

/-- One byte of the round keys, and the offset behind it. -/
def appendByte (byte : UInt8) (s : List UInt8 × UInt8) : List UInt8 × UInt8 :=
  (s.1.set s.2.toNat (s.1.getD (s.2.toNat - 16) 0 ^^^ byte), s.2 + 1)

def appendWord (tmp : List UInt8) (s : List UInt8 × UInt8) : List UInt8 × UInt8 :=
  (List.range 4).foldl (fun s i => appendByte (tmp.getD i 0) s) s

/-- The loop of `aes_key_expand`, with a bound on its rounds. -/
def expandLoop : ℕ → UInt8 → UInt8 → List UInt8 → List UInt8 → Option (List UInt8)
  | 0, _, _, _, _ => none
  | fuel + 1, bytes, rconI, tmp, roundKeys =>
    if bytes < 176 then
      let tmp := lastWord roundKeys bytes tmp
      let next := if bytes &&& 15 = 0 then (rotateAndSub (rcon.getD rconI.toNat 0) tmp, rconI + 1)
        else (tmp, rconI)
      let grown := appendWord next.1 (roundKeys, bytes)
      expandLoop fuel grown.2 next.2 next.1 grown.1
    else some roundKeys

def aesKeyExpand (fuel : ℕ) (key roundKeys : List UInt8) : Option (List UInt8) :=
  expandLoop fuel 16 0 (List.replicate 4 0) (writeFrom roundKeys 0 key)

def aes128EncryptBlock (fuel : ℕ) (key input : List UInt8) : Option (List UInt8) :=
  match aesKeyExpand fuel key (List.replicate 176 0) with
  | none => none
  | some roundKeys =>
    let state := writeFrom (List.replicate 16 0) 0 input
    let state := aesAddRoundKey state roundKeys
    let state := (List.range 9).foldl (fun state round =>
      let state := aesSubBytes state
      let state := aesShiftRows state
      let state := aesMixColumns state
      aesAddRoundKey state (roundKeys.drop ((round + 1) * 16))) state
    let state := aesSubBytes state
    let state := aesShiftRows state
    some (aesAddRoundKey state (roundKeys.drop 160))

/-! ## The state -/

theorem exists_sixteen {s : List UInt8} (h : s.length = 16) :
    ∃ a0 a1 a2 a3 a4 a5 a6 a7 a8 a9 a10 a11 a12 a13 a14 a15 : UInt8,
      s = [a0, a1, a2, a3, a4, a5, a6, a7, a8, a9, a10, a11, a12, a13, a14, a15] := by
  rcases s with _ | ⟨a0,
    _ | ⟨a1,
      _ | ⟨a2,
      _ | ⟨a3,
      _ | ⟨a4,
      _ | ⟨a5,
      _ | ⟨a6,
      _ | ⟨a7,
      _ | ⟨a8, _ | ⟨a9,
      _ | ⟨a10, _ | ⟨a11, _ | ⟨a12, _ | ⟨a13, _ | ⟨a14, _ | ⟨a15, _ | ⟨a16, s⟩⟩⟩⟩⟩⟩⟩⟩⟩⟩⟩⟩⟩⟩⟩⟩⟩ <;>
    simp at h ⊢

theorem shiftRows_eq {s : List UInt8} (h : s.length = 16) :
    aesShiftRows s = Crypto.aesShiftRows s := by
  obtain ⟨a0, a1, a2, a3, a4, a5, a6, a7, a8, a9, a10, a11, a12, a13, a14, a15, rfl⟩ :=
    exists_sixteen h
  rfl

/-- A loop that replaces each of the first bytes. -/
theorem foldl_set (f : ℕ → UInt8 → UInt8) (s : List UInt8) {n : ℕ} (h : n ≤ s.length) :
    (List.range n).foldl (fun s i => s.set i (f i (s.getD i 0))) s =
      (List.range n).map (fun i => f i (s.getD i 0)) ++ s.drop n := by
  induction n with
  | zero => simp
  | succ n ih =>
    have hlength : ((List.range n).map fun i => f i (s.getD i 0)).length = n := by
      rw [List.length_map, List.length_range]
    have hget : ((List.range n).map (fun i => f i (s.getD i 0)) ++ s.drop n).getD n 0 =
        s.getD n 0 := by
      rw [List.getD_append_right _ _ _ _ (by omega), hlength, Nat.sub_self,
        List.getD_eq_getElem?_getD, List.getElem?_drop, Nat.add_zero, ← List.getD_eq_getElem?_getD]
    rw [List.range_succ, List.foldl_append, List.foldl_cons, List.foldl_nil, ih (by omega), hget,
      List.set_append_right _ _ (by omega), hlength, Nat.sub_self,
      List.drop_eq_getElem_cons (by omega : n < s.length), List.set_cons_zero, List.map_append,
      List.map_singleton, List.append_assoc]
    rfl

theorem subBytes_eq {s : List UInt8} (h : s.length = 16) :
    aesSubBytes s = Crypto.aesSubBytes s := by
  have hloop := foldl_set (fun _ byte => aesSbox.getD byte.toNat 0) s h.ge
  rw [List.drop_eq_nil_of_le h.le, List.append_nil] at hloop
  refine hloop.trans ?_
  apply List.ext_getElem
  · rw [Crypto.aesSubBytes, List.length_map, List.length_map, List.length_range, h]
  · intro i hi hi'
    have hlt : i < s.length := by simpa [h] using hi
    rw [List.getElem_map, List.getElem_range, List.getD_eq_getElem _ _ hlt]
    simp only [Crypto.aesSubBytes, List.getElem_map]
    rfl

theorem addRoundKey_eq {s roundKey : List UInt8} (h : s.length = 16) (hkey : 16 ≤ roundKey.length) :
    aesAddRoundKey s roundKey = Crypto.aesAddRoundKey s roundKey := by
  have hloop := foldl_set (fun i byte => byte ^^^ roundKey.getD i 0) s h.ge
  rw [List.drop_eq_nil_of_le h.le, List.append_nil] at hloop
  rw [Crypto.aesAddRoundKey, GcmLoops.xorBytes_eq_map (by omega), h]
  exact hloop

/-- A column is mixed over itself. -/
theorem mixColumnAt_append (front back : List UInt8) (a0 a1 a2 a3 : UInt8) :
    mixColumnAt (front ++ a0 :: a1 :: a2 :: a3 :: back) front.length =
      front ++ mixColumn a0 a1 a2 a3 ++ back := by
  have hget (l : List UInt8) (j : ℕ) : (front ++ l).getD (front.length + j) 0 = l.getD j 0 := by
    rw [List.getD_append_right _ _ _ _ (by omega), Nat.add_sub_cancel_left]
  have hset (l : List UInt8) (j : ℕ) (v : UInt8) :
      (front ++ l).set (front.length + j) v = front ++ l.set j v := by
    rw [List.set_append_right _ _ (by omega), Nat.add_sub_cancel_left]
  have hget0 (l : List UInt8) : (front ++ l).getD front.length 0 = l.getD 0 0 := hget l 0
  have hset0 (l : List UInt8) (v : UInt8) : (front ++ l).set front.length v = front ++ l.set 0 v :=
    hset l 0 v
  unfold mixColumnAt mixColumn
  simp only [hget, hset, hget0, hset0, List.getD_cons_zero, List.getD_cons_succ, List.set_cons_zero,
    List.set_cons_succ, List.append_assoc, List.cons_append, List.nil_append]

theorem mixColumns_eq {s : List UInt8} (h : s.length = 16) :
    aesMixColumns s = Crypto.aesMixColumns s := by
  obtain ⟨a0, a1, a2, a3, a4, a5, a6, a7, a8, a9, a10, a11, a12, a13, a14, a15, rfl⟩ :=
    exists_sixteen h
  have h0 :
    mixColumnAt [a0, a1, a2, a3, a4, a5, a6, a7, a8, a9, a10, a11, a12, a13, a14, a15] (0 * 4) =
      mixColumn a0 a1 a2 a3 ++ [a4, a5, a6, a7, a8, a9, a10, a11, a12, a13, a14, a15] :=
    mixColumnAt_append [] _ a0 a1 a2 a3
  have h1 : mixColumnAt (mixColumn a0 a1 a2 a3 ++
      [a4, a5, a6, a7, a8, a9, a10, a11, a12, a13, a14, a15]) (1 * 4) =
      mixColumn a0 a1 a2 a3 ++ mixColumn a4 a5 a6 a7 ++ [a8, a9, a10, a11, a12, a13, a14, a15] :=
    mixColumnAt_append _ _ a4 a5 a6 a7
  have h2 : mixColumnAt (mixColumn a0 a1 a2 a3 ++ mixColumn a4 a5 a6 a7 ++
      [a8, a9, a10, a11, a12, a13, a14, a15]) (2 * 4) =
      mixColumn a0 a1 a2 a3 ++ mixColumn a4 a5 a6 a7 ++ mixColumn a8 a9 a10 a11 ++
        [a12, a13, a14, a15] :=
    mixColumnAt_append _ _ a8 a9 a10 a11
  have h3 :
    mixColumnAt (mixColumn a0 a1 a2 a3 ++ mixColumn a4 a5 a6 a7 ++ mixColumn a8 a9 a10 a11 ++
      [a12, a13, a14, a15]) (3 * 4) =
      mixColumn a0 a1 a2 a3 ++ mixColumn a4 a5 a6 a7 ++ mixColumn a8 a9 a10 a11 ++
        mixColumn a12 a13 a14 a15 ++ [] :=
    mixColumnAt_append _ _ a12 a13 a14 a15
  rw [aesMixColumns, show List.range 4 = [0, 1, 2, 3] by rfl]
  simp only [List.foldl_cons, List.foldl_nil]
  rw [h0, h1, h2, h3]
  rfl

/-! ## The round keys -/

/-- The round keys after `j` rounds of the loop. -/
def expanded (key : List UInt8) (j : ℕ) : List UInt8 :=
  (List.range j).foldl (fun roundKeys _ => expandWord roundKeys) key

theorem expanded_succ (key : List UInt8) (j : ℕ) :
    expanded key (j + 1) = expandWord (expanded key j) := by
  rw [expanded, List.range_succ, List.foldl_append, List.foldl_cons, List.foldl_nil, expanded]

theorem length_expanded {key : List UInt8} (h : key.length = 16) (j : ℕ) :
    (expanded key j).length = 16 + 4 * j := by
  induction j with
  | zero => exact h
  | succ j ih =>
    rw [expanded_succ, GcmLoops.length_expandWord, ih]
    omega

section Growing

variable {front back : List UInt8} {bytes : UInt8}

theorem exists_four {tmp : List UInt8} (h : tmp.length = 4) :
    ∃ t0 t1 t2 t3 : UInt8, tmp = [t0, t1, t2, t3] := by
  rcases tmp with _ | ⟨t0, _ | ⟨t1, _ | ⟨t2, _ | ⟨t3, _ | ⟨t4, tmp⟩⟩⟩⟩⟩ <;> simp at h ⊢

theorem lastWord_eq (hbytes : bytes.toNat = front.length) (hlong : 4 ≤ front.length)
    {tmp : List UInt8} (htmp : tmp.length = 4) :
    lastWord (front ++ back) bytes tmp =
      (List.range 4).map fun i => front.getD (front.length - 4 + i) 0 := by
  have hget (i : ℕ) (hi : i < 4) : (front ++ back).getD (bytes.toNat - 4 + i) 0 =
      front.getD (front.length - 4 + i) 0 := by
    rw [hbytes, List.getD_append _ _ _ _ (by omega)]
  obtain ⟨t0, t1, t2, t3, rfl⟩ := exists_four htmp
  simp only [lastWord, List.range_succ, List.range_zero, List.nil_append, List.cons_append,
    List.foldl_cons, List.foldl_nil, List.map_cons, List.map_nil, List.set_cons_zero,
    List.set_cons_succ]
  rw [hget 0 (by omega), hget 1 (by omega), hget 2 (by omega), hget 3 (by omega)]

/-- The byte behind the ones that are there. -/
theorem appendByte_eq (hlong : 16 ≤ front.length) (hshort : front.length < 256)
    (old byte : UInt8) :
    appendByte byte (front ++ old :: back, UInt8.ofNat front.length) =
      (front ++ [front.getD (front.length - 16) 0 ^^^ byte] ++ back,
        UInt8.ofNat (front.length + 1)) := by
  have hoffset : (UInt8.ofNat front.length).toNat = front.length := by
    rw [UInt8.toNat_ofNat', Nat.mod_eq_of_lt hshort]
  rw [appendByte]
  dsimp only
  rw [hoffset, List.getD_append _ _ _ _ (by omega), List.set_append_right _ _ le_rfl, Nat.sub_self,
    List.set_cons_zero, List.append_assoc, GcmLoops.ofNat_add_one]
  rfl

theorem appendWord_eq (hlong : 16 ≤ front.length) (hshort : front.length + 4 ≤ 256)
    (tmp : List UInt8) (o0 o1 o2 o3 : UInt8) :
    appendWord tmp (front ++ o0 :: o1 :: o2 :: o3 :: back, UInt8.ofNat front.length) =
      (front ++ ((List.range 4).map fun i =>
        front.getD (front.length - 16 + i) 0 ^^^ tmp.getD i 0) ++ back,
        UInt8.ofNat (front.length + 4)) := by
  set made := fun i => front.getD (front.length - 16 + i) 0 ^^^ tmp.getD i 0 with hmade
  -- the bytes of the round before lie below the ones that are added
  have hstep (k : ℕ) (hk : k < 4) (old : UInt8) (back : List UInt8) :
      appendByte (tmp.getD k 0) (front ++ (List.range k).map made ++ old :: back,
          UInt8.ofNat (front.length + k)) =
        (front ++ (List.range (k + 1)).map made ++ back, UInt8.ofNat (front.length + (k + 1))) := by
    have hlength : (front ++ (List.range k).map made).length = front.length + k := by
      rw [List.length_append, List.length_map, List.length_range]
    have hbyte := @appendByte_eq (front ++ (List.range k).map made) back (by omega) (by omega) old
      (tmp.getD k 0)
    rw [hlength, List.getD_append _ _ _ _ (by omega),
      show front.length + k - 16 = front.length - 16 + k by omega] at hbyte
    rw [hbyte, List.range_succ, List.map_append, List.map_singleton, ← List.append_assoc,
      Nat.add_assoc]
  have h0 := hstep 0 (by omega) o0 (o1 :: o2 :: o3 :: back)
  have h1 := hstep 1 (by omega) o1 (o2 :: o3 :: back)
  have h2 := hstep 2 (by omega) o2 (o3 :: back)
  have h3 := hstep 3 (by omega) o3 back
  rw [List.range_zero, List.map_nil, List.append_nil, Nat.add_zero] at h0
  rw [appendWord, show List.range 4 = [0, 1, 2, 3] by rfl]
  simp only [List.foldl_cons, List.foldl_nil]
  rw [h0, h1, h2, h3]
  rfl

/-- Where a key of 16 bytes ends. -/
theorem block_end_iff {n : ℕ} (h : n < 256) : UInt8.ofNat n &&& 15 = 0 ↔ n % 16 = 0 := by
  rw [← UInt8.toNat_inj, UInt8.toNat_and, UInt8.toNat_ofNat', Nat.mod_eq_of_lt h]
  exact (Nat.and_two_pow_sub_one_eq_mod _ 4).congr_left

/-- One pass over the key that has grown so far, with the rest of the buffer behind it. -/
theorem expandWord_eq {roundKeys tmp : List UInt8} {constant : UInt8}
    (hlong : 16 ≤ roundKeys.length) (hshort : roundKeys.length + 4 ≤ 256)
    (hrcon : roundKeys.length % 16 = 0 → constant = rcon.getD (roundKeys.length / 16 - 1) 0)
    (htmp : tmp.length = 4)
    (o0 o1 o2 o3 : UInt8) (back : List UInt8) :
    let bytes := UInt8.ofNat roundKeys.length
    let buffer := roundKeys ++ o0 :: o1 :: o2 :: o3 :: back
    appendWord (if bytes &&& 15 = 0 then rotateAndSub constant (lastWord buffer bytes tmp)
        else lastWord buffer bytes tmp) (buffer, bytes) =
      (expandWord roundKeys ++ back, UInt8.ofNat (roundKeys.length + 4)) := by
  intro bytes buffer
  have hbytes : bytes.toNat = roundKeys.length := by
    rw [UInt8.toNat_ofNat', Nat.mod_eq_of_lt (by omega)]
  have hblock : bytes &&& 15 = 0 ↔ roundKeys.length % 16 = 0 := block_end_iff (by omega)
  have hlast :=
    @lastWord_eq roundKeys (o0 :: o1 :: o2 :: o3 :: back) bytes hbytes (by omega) tmp htmp
  rw [hlast, appendWord_eq hlong hshort, expandWord]
  dsimp only
  by_cases hzero : roundKeys.length % 16 = 0
  · rw [if_pos (hblock.2 hzero), if_pos hzero, hrcon hzero]
    rfl
  · rw [if_neg (hblock.not.2 hzero), if_neg hzero]
    rfl

end Growing

theorem length_lastWord (roundKeys : List UInt8) (bytes : UInt8) (tmp : List UInt8) :
    (lastWord roundKeys bytes tmp).length = tmp.length := by
  simp [lastWord, List.range_succ]

theorem length_rotateAndSub (constant : UInt8) (tmp : List UInt8) :
    (rotateAndSub constant tmp).length = tmp.length := by
  simp [rotateAndSub]

theorem exists_more {back : List UInt8} (h : 4 ≤ back.length) :
    ∃ o0 o1 o2 o3 more, back = o0 :: o1 :: o2 :: o3 :: more := by
  rcases back with _ | ⟨o0, _ | ⟨o1, _ | ⟨o2, _ | ⟨o3, more⟩⟩⟩⟩ <;> simp at h ⊢

/-- After `j` rounds of the loop the buffer has the keys of `j` passes in front, and one constant is
used for each four of them. -/
theorem expandLoop_from {key : List UInt8} (hkey : key.length = 16) {j todo fuel : ℕ}
    (hj : j + todo = 40) (hfuel : todo < fuel) {tmp back : List UInt8} (htmp : tmp.length = 4)
    (hback : back.length = 4 * todo) :
    expandLoop fuel (UInt8.ofNat (16 + 4 * j)) (UInt8.ofNat ((j + 3) / 4)) tmp
      (expanded key j ++ back) = some (expanded key 40) := by
  induction todo generalizing j fuel tmp back with
  | zero =>
    obtain ⟨fuel, rfl⟩ := Nat.exists_eq_add_one_of_ne_zero (by omega : fuel ≠ 0)
    have hnil : back = [] := List.eq_nil_of_length_eq_zero (by omega)
    rw [Nat.add_zero] at hj
    rw [hj, hnil, List.append_nil, expandLoop, if_neg (by decide)]
  | succ todo ih =>
    obtain ⟨fuel, rfl⟩ := Nat.exists_eq_add_one_of_ne_zero (by omega : fuel ≠ 0)
    obtain ⟨o0, o1, o2, o3, more, rfl⟩ := exists_more (by omega : 4 ≤ back.length)
    have hlength := length_expanded hkey j
    have hmore : UInt8.ofNat (16 + 4 * j) < 176 := by
      rw [UInt8.lt_iff_toNat_lt, UInt8.toNat_ofNat', Nat.mod_eq_of_lt (by omega)]
      show 16 + 4 * j < 176
      omega
    have hconstant : (expanded key j).length % 16 = 0 →
        rcon.getD (UInt8.ofNat ((j + 3) / 4)).toNat 0 =
          rcon.getD ((expanded key j).length / 16 - 1) 0 := by
      intro h
      rw [UInt8.toNat_ofNat', hlength]
      congr 1
      omega
    have hpass := expandWord_eq (by omega) (by omega) hconstant htmp o0 o1 o2 o3 more
    have hcount : (if UInt8.ofNat (16 + 4 * j) &&& 15 = 0 then UInt8.ofNat ((j + 3) / 4) + 1
        else UInt8.ofNat ((j + 3) / 4)) = UInt8.ofNat ((j + 1 + 3) / 4) := by
      have hblock := block_end_iff (by omega : 16 + 4 * j < 256)
      by_cases hzero : (16 + 4 * j) % 16 = 0
      · rw [if_pos (hblock.2 hzero), GcmLoops.ofNat_add_one]
        congr 1
        omega
      · rw [if_neg (hblock.not.2 hzero)]
        congr 1
        omega
    rw [hlength, ← expanded_succ] at hpass
    rw [expandLoop, if_pos hmore]
    dsimp only at hpass ⊢
    rw [apply_ite Prod.fst, apply_ite Prod.snd]
    dsimp only
    rw [hpass, hcount]
    dsimp only
    rw [show 16 + 4 * j + 4 = 16 + 4 * (j + 1) by omega]
    refine ih (by omega) (by omega) ?_ ?_
    · by_cases hblock : UInt8.ofNat (16 + 4 * j) &&& 15 = 0
      · rw [if_pos hblock, length_rotateAndSub, length_lastWord, htmp]
      · rw [if_neg hblock, length_lastWord, htmp]
    · simp only [List.length_cons] at hback
      omega

theorem keyExpand_eq {key : List UInt8} (hkey : key.length = 16) {fuel : ℕ} (hfuel : 40 < fuel) :
    aesKeyExpand fuel key (List.replicate 176 0) = some (Crypto.aesKeyExpand key) := by
  have hwrite : writeFrom (List.replicate 176 0) 0 key = expanded key 0 ++
      List.replicate 160 0 := by
    rw [BlockBuffer.writeFrom_eq _ (by rw [hkey, List.length_replicate]; omega), List.take_zero,
      List.nil_append, hkey, List.drop_replicate]
    rfl
  rw [aesKeyExpand, hwrite]
  exact expandLoop_from hkey (Nat.zero_add 40) hfuel List.length_replicate List.length_replicate

theorem length_addRoundKey {s roundKey : List UInt8} (h : s.length = 16)
    (hkey : 16 ≤ roundKey.length) : (Crypto.aesAddRoundKey s roundKey).length = 16 := by
  rw [Crypto.aesAddRoundKey, GcmLoops.length_xorBytes]
  omega

theorem length_subBytes (s : List UInt8) : (Crypto.aesSubBytes s).length = s.length :=
  List.length_map _

theorem length_shiftRows (s : List UInt8) : (Crypto.aesShiftRows s).length = 16 := by
  rw [Crypto.aesShiftRows, List.length_map, List.length_range]

theorem length_mixColumns (s : List UInt8) : (Crypto.aesMixColumns s).length = 16 := by
  rfl

/-- The state after `n` of the middle rounds. -/
def rounds (roundKeys state : List UInt8) (n : ℕ) : List UInt8 :=
  (List.range n).foldl (fun state round => Crypto.aesAddRoundKey
    (Crypto.aesMixColumns (Crypto.aesShiftRows (Crypto.aesSubBytes state)))
    (roundKeys.drop (16 * (round + 1)))) state

theorem rounds_succ (roundKeys state : List UInt8) (n : ℕ) :
    rounds roundKeys state (n + 1) = Crypto.aesAddRoundKey (Crypto.aesMixColumns
      (Crypto.aesShiftRows (Crypto.aesSubBytes (rounds roundKeys state n))))
      (roundKeys.drop (16 * (n + 1))) := by
  rw [rounds, List.range_succ, List.foldl_append, List.foldl_cons, List.foldl_nil, rounds]

section Rounds

variable {roundKeys state : List UInt8} (hkeys : roundKeys.length = 176) (h : state.length = 16)
include hkeys h

theorem length_rounds {n : ℕ} (hn : n ≤ 9) : (rounds roundKeys state n).length = 16 := by
  induction n with
  | zero => exact h
  | succ n ih =>
    rw [rounds_succ, length_addRoundKey (length_mixColumns _)]
    rw [List.length_drop, hkeys]
    omega

theorem rounds_eq {n : ℕ} (hn : n ≤ 9) :
    (List.range n).foldl (fun state round => aesAddRoundKey
      (aesMixColumns (aesShiftRows (aesSubBytes state))) (roundKeys.drop ((round + 1) * 16)))
        state =
      rounds roundKeys state n := by
  induction n with
  | zero => rw [rounds, List.range_zero, List.foldl_nil, List.foldl_nil]
  | succ n ih =>
    have hlength := length_rounds hkeys h (by omega : n ≤ 9)
    have hsub := (length_subBytes (rounds roundKeys state n)).trans hlength
    rw [List.range_succ, List.foldl_append, List.foldl_cons, List.foldl_nil, ih (by omega),
      subBytes_eq hlength, shiftRows_eq hsub, mixColumns_eq (length_shiftRows _),
      addRoundKey_eq (length_mixColumns _) (by rw [List.length_drop, hkeys]; omega), rounds_succ,
      Nat.mul_comm]

end Rounds

/-- The cipher in its buffers returns, and leaves the block that the cipher over lists makes. -/
theorem encryptBlock_eq {key input : List UInt8} (hkey : key.length = 16)
    (hinput : input.length = 16) {fuel : ℕ} (hfuel : 40 < fuel) :
    aes128EncryptBlock fuel key input = some (Crypto.aes128EncryptBlock key input) := by
  have hkeys := GcmLoops.length_aesKeyExpand hkey
  have hwrite : writeFrom (List.replicate 16 0) 0 input = input := by
    rw [GcmLoops.writeFrom_zeros (by omega), pad, hinput, Nat.sub_self, List.replicate_zero,
      List.append_nil]
  have hstart := length_addRoundKey hinput (by omega : 16 ≤ (Crypto.aesKeyExpand key).length)
  have hrounds := length_rounds hkeys hstart le_rfl
  have hsub := (length_subBytes _).trans hrounds
  unfold aes128EncryptBlock Crypto.aes128EncryptBlock
  rw [keyExpand_eq hkey hfuel]
  dsimp only
  rw [hwrite, addRoundKey_eq hinput (by omega), rounds_eq hkeys hstart le_rfl, subBytes_eq hrounds,
    shiftRows_eq hsub, addRoundKey_eq (length_shiftRows _) (by rw [List.length_drop, hkeys])]
  rfl

end AesInPlace

end MinervaOS.Crypto
