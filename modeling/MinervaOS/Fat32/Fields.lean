import Mathlib.Data.List.GetD
import MinervaOS.Fat32.Ops

/-!
# Fields and slots

What a field reads after a write: the value if it is the field written, what it read before if the
two do not overlap. A write into one 32-byte slot of a directory sector is the same write into the
entry at that slot, and leaves the entries at the others alone.
-/

namespace MinervaOS.Fat32

theorem rd32_lt (p : Sector) (o : Nat) : rd32 p o < 4294967296 := by
  have h0 := (p o).toNat_lt
  have h1 := (p (o + 1)).toNat_lt
  have h2 := (p (o + 2)).toNat_lt
  have h3 := (p (o + 3)).toNat_lt
  simp only [rd32]
  omega

theorem rd16_lt (p : Sector) (o : Nat) : rd16 p o < 65536 := by
  have h0 := (p o).toNat_lt
  have h1 := (p (o + 1)).toNat_lt
  simp only [rd16]
  omega

theorem rd32_congr {p q : Sector} {o o' : Nat} (h : ∀ k < 4, p (o + k) = q (o' + k)) :
    rd32 p o = rd32 q o' := by
  have h0 := h 0 (by omega)
  have h1 := h 1 (by omega)
  have h2 := h 2 (by omega)
  have h3 := h 3 (by omega)
  simp only [Nat.add_zero] at h0
  simp only [rd32, h0, h1, h2, h3]

theorem rd16_congr {p q : Sector} {o o' : Nat} (h : ∀ k < 2, p (o + k) = q (o' + k)) :
    rd16 p o = rd16 q o' := by
  have h0 := h 0 (by omega)
  have h1 := h 1 (by omega)
  simp only [Nat.add_zero] at h0
  simp only [rd16, h0, h1]

theorem wr32_of_ne (p : Sector) (o v : Nat) {i : Nat} (h : i < o ∨ o + 4 ≤ i) :
    wr32 p o v i = p i := by
  simp only [wr32]
  rw [if_neg (by omega), if_neg (by omega), if_neg (by omega), if_neg (by omega)]

theorem wr16_of_ne (p : Sector) (o v : Nat) {i : Nat} (h : i < o ∨ o + 2 ≤ i) :
    wr16 p o v i = p i := by
  simp only [wr16]
  rw [if_neg (by omega), if_neg (by omega)]

theorem rd32_wr32 (p : Sector) (o v : Nat) : rd32 (wr32 p o v) o = v % 4294967296 := by
  simp [rd32, wr32]
  omega

theorem rd16_wr16 (p : Sector) (o v : Nat) : rd16 (wr16 p o v) o = v % 65536 := by
  simp [rd16, wr16]
  omega

theorem rd32_wr32_of_ne (p : Sector) {o o' : Nat} (v : Nat) (h : o' + 4 ≤ o ∨ o + 4 ≤ o') :
    rd32 (wr32 p o v) o' = rd32 p o' :=
  rd32_congr fun _ hk => wr32_of_ne p o v (by omega)

theorem rd16_wr32_of_ne (p : Sector) {o o' : Nat} (v : Nat) (h : o' + 2 ≤ o ∨ o + 4 ≤ o') :
    rd16 (wr32 p o v) o' = rd16 p o' :=
  rd16_congr fun _ hk => wr32_of_ne p o v (by omega)

theorem rd16_wr16_of_ne (p : Sector) {o o' : Nat} (v : Nat) (h : o' + 2 ≤ o ∨ o + 2 ≤ o') :
    rd16 (wr16 p o v) o' = rd16 p o' :=
  rd16_congr fun _ hk => wr16_of_ne p o v (by omega)

theorem rd32_wr16_of_ne (p : Sector) {o o' : Nat} (v : Nat) (h : o' + 4 ≤ o ∨ o + 2 ≤ o') :
    rd32 (wr16 p o v) o' = rd32 p o' :=
  rd32_congr fun _ hk => wr16_of_ne p o v (by omega)

/-! ## Entries -/

theorem firstCluster_lt (e : Dirent) : firstCluster e < 4294967296 := by
  have h0 := rd16_lt e 20
  have h1 := rd16_lt e 26
  simp only [firstCluster]
  omega

namespace Dirent

/-- `e` with `cluster` as its first cluster. -/
def withCluster (e : Dirent) (cluster : Nat) : Dirent :=
  wr16 (wr16 e 20 (cluster / 65536)) 26 (cluster % 65536)

def withSize (e : Dirent) (n : Nat) : Dirent := wr32 e 28 n

def withName (e : Dirent) (shortName : List UInt8) : Dirent :=
  copyAt e 0 11 fun j => shortName.getD j 0

theorem size_lt (e : Dirent) : e.size < 4294967296 := rd32_lt e 28

@[simp] theorem size_withSize (e : Dirent) (n : Nat) : (e.withSize n).size = n % 4294967296 :=
  rd32_wr32 e 28 n

@[simp] theorem size_withCluster (e : Dirent) (c : Nat) : (e.withCluster c).size = e.size := by
  unfold withCluster size
  rw [rd32_wr16_of_ne _ _ (by omega), rd32_wr16_of_ne _ _ (by omega)]

@[simp] theorem size_withName (e : Dirent) (s : List UInt8) : (e.withName s).size = e.size :=
  rd32_congr fun k _ => by simp [withName, copyAt]; omega

@[simp] theorem firstCluster_withSize (e : Dirent) (n : Nat) :
    firstCluster (e.withSize n) = firstCluster e := by
  unfold withSize firstCluster
  rw [rd16_wr32_of_ne _ _ (by omega), rd16_wr32_of_ne _ _ (by omega)]

@[simp] theorem firstCluster_withName (e : Dirent) (s : List UInt8) :
    firstCluster (e.withName s) = firstCluster e := by
  have h : ∀ o, 11 ≤ o → rd16 (e.withName s) o = rd16 e o := fun o ho =>
    rd16_congr fun k _ => by simp [withName, copyAt]; omega
  unfold firstCluster
  rw [h 20 (by omega), h 26 (by omega)]

theorem firstCluster_withCluster (e : Dirent) {c : Nat} (h : c < 4294967296) :
    firstCluster (e.withCluster c) = c := by
  unfold withCluster firstCluster
  rw [rd16_wr16_of_ne _ _ (by omega), rd16_wr16, rd16_wr16]
  omega

theorem withSize_apply (e : Dirent) (n : Nat) {j : Nat} (h : j < 28) : e.withSize n j = e j :=
  wr32_of_ne e 28 n (by omega)

theorem withCluster_apply (e : Dirent) (c : Nat) {j : Nat} (h : j < 20) :
    e.withCluster c j = e j := by
  unfold withCluster
  rw [wr16_of_ne _ _ _ (by omega), wr16_of_ne _ _ _ (by omega)]

theorem withName_apply (e : Dirent) (s : List UInt8) {j : Nat} (h : 11 ≤ j) :
    e.withName s j = e j := by
  simp only [withName, copyAt]
  rw [if_neg (by omega)]

@[simp] theorem attr_withSize (e : Dirent) (n : Nat) : (e.withSize n).attr = e.attr :=
  withSize_apply e n (by omega)

@[simp] theorem attr_withCluster (e : Dirent) (c : Nat) : (e.withCluster c).attr = e.attr :=
  withCluster_apply e c (by omega)

@[simp] theorem attr_withName (e : Dirent) (s : List UInt8) : (e.withName s).attr = e.attr :=
  withName_apply e s (by omega)

theorem name_congr {e e' : Dirent} (h : ∀ j < 11, e j = e' j) : e.name = e'.name :=
  List.map_congr_left fun j hj => h j (List.mem_range.1 hj)

@[simp] theorem name_withSize (e : Dirent) (n : Nat) : (e.withSize n).name = e.name :=
  name_congr fun j hj => withSize_apply e n (by omega)

@[simp] theorem name_withCluster (e : Dirent) (c : Nat) : (e.withCluster c).name = e.name :=
  name_congr fun j hj => withCluster_apply e c (by omega)

theorem name_of_getD {e : Dirent} {s : List UInt8} (hs : s.length = 11)
    (h : ∀ j < 11, e j = s.getD j 0) : e.name = s := by
  apply List.ext_getElem
  · simp [name, hs]
  · intro j h1 h2
    simp only [name, List.getElem_map, List.getElem_range]
    rw [h j (by omega), List.getD_eq_getElem _ _ h2]

theorem name_withName (e : Dirent) {s : List UInt8} (hs : s.length = 11) :
    (e.withName s).name = s :=
  name_of_getD hs fun j hj => by simp [withName, copyAt, hj]

theorem name_newDirent {s : List UInt8} (hs : s.length = 11) : (newDirent s).name = s :=
  name_of_getD hs fun j hj => by simp [newDirent, hj]

end Dirent

/-! ## Slots -/

/-- An edit of the buffer that only touches slot `i`, where it does to the entry what `g` does. -/
structure EditsSlot (f : Sector → Sector) (i : Nat) (g : Dirent → Dirent) : Prop where
  outside : ∀ sec k, k < 32 * i ∨ 32 * i + 32 ≤ k → f sec k = sec k
  inside : ∀ sec, dirent (f sec) i = g (dirent sec i)

theorem EditsSlot.dirent_of_ne {f : Sector → Sector} {i : Nat} {g : Dirent → Dirent}
    (h : EditsSlot f i g) (sec : Sector) {j : Nat} (hj : j ≠ i) :
    dirent (f sec) j = dirent sec j := by
  funext k
  simp only [dirent]
  split
  · rw [h.outside sec _ (by omega)]
  · rfl

theorem EditsSlot.comp {f f' : Sector → Sector} {i : Nat} {g g' : Dirent → Dirent}
    (h : EditsSlot f i g) (h' : EditsSlot f' i g') :
    EditsSlot (fun sec => f' (f sec)) i (fun e => g' (g e)) where
  outside sec k hk := by rw [h'.outside _ k hk, h.outside sec k hk]
  inside sec := by rw [h'.inside, h.inside]

theorem editsSlot_wr32 (i : Nat) {o : Nat} (ho : o + 4 ≤ 32) (v : Nat) :
    EditsSlot (fun sec => wr32 sec (32 * i + o) v) i (fun e => wr32 e o v) where
  outside sec k hk := wr32_of_ne sec _ v (by omega)
  inside sec := by
    funext k
    by_cases hk : k < 32
    · simp only [dirent, wr32, hk, if_true, Nat.add_assoc, Nat.add_left_cancel_iff]
    · simp only [dirent, wr32, hk, if_false]
      rw [if_neg (by omega), if_neg (by omega), if_neg (by omega), if_neg (by omega)]

theorem editsSlot_wr16 (i : Nat) {o : Nat} (ho : o + 2 ≤ 32) (v : Nat) :
    EditsSlot (fun sec => wr16 sec (32 * i + o) v) i (fun e => wr16 e o v) where
  outside sec k hk := wr16_of_ne sec _ v (by omega)
  inside sec := by
    funext k
    by_cases hk : k < 32
    · simp only [dirent, wr16, hk, if_true, Nat.add_assoc, Nat.add_left_cancel_iff]
    · simp only [dirent, wr16, hk, if_false]
      rw [if_neg (by omega), if_neg (by omega)]

theorem editsSlot_setCluster (i c : Nat) :
    EditsSlot (fun sec => setCluster sec i c) i (fun e => e.withCluster c) :=
  (editsSlot_wr16 i (by omega) _).comp (editsSlot_wr16 i (by omega) _)

theorem editsSlot_setSize (i n : Nat) :
    EditsSlot (fun sec => setSize sec i n) i (fun e => e.withSize n) :=
  editsSlot_wr32 i (by omega) n

theorem editsSlot_setEntry (i c n : Nat) :
    EditsSlot (fun sec => setSize (setCluster sec i c) i n) i
      (fun e => (e.withCluster c).withSize n) :=
  (editsSlot_setCluster i c).comp (editsSlot_setSize i n)

theorem editsSlot_setName (i : Nat) (s : List UInt8) :
    EditsSlot (fun sec => setName sec i s) i (fun e => e.withName s) where
  outside sec k hk := by
    simp only [setName, copyAt]
    rw [if_neg (by omega)]
  inside sec := by
    funext k
    simp only [dirent, setName, Dirent.withName, copyAt]
    by_cases hk : k < 11
    · rw [if_pos (by omega), if_pos (by omega), if_pos (by omega)]
      simp
    · have h1 : ¬(32 * i ≤ 32 * i + k ∧ 32 * i + k < 32 * i + 11) := by omega
      have h2 : ¬(0 ≤ k ∧ k < 0 + 11) := by omega
      rw [if_neg h1, if_neg h2]

theorem editsSlot_setDirent (i : Nat) {e : Dirent} (he : ∀ k, 32 ≤ k → e k = 0) :
    EditsSlot (fun sec => setDirent sec i e) i (fun _ => e) where
  outside sec k hk := by
    simp only [setDirent, copyAt]
    rw [if_neg (by omega)]
  inside sec := by
    funext k
    simp only [dirent, setDirent, copyAt]
    by_cases hk : k < 32
    · rw [if_pos hk, if_pos (by omega)]
      simp
    · rw [if_neg hk, he k (by omega)]

theorem newDirent_of_ge (s : List UInt8) {k : Nat} (hk : 32 ≤ k) : newDirent s k = 0 := by
  simp only [newDirent]
  rw [if_neg (by omega), if_neg (by omega)]

theorem deletedDirent_of_ge {k : Nat} (hk : 32 ≤ k) : deletedDirent k = 0 := by
  simp only [deletedDirent]
  rw [if_neg (by omega)]

end MinervaOS.Fat32
