import MinervaOS.Lib.Bresenham
import MinervaOS.Lib.Loop
import Mathlib.Data.List.Range

/-!
# Lines

`graphics_draw_line`, with the sums that an `int` cannot hold as results that are missing. As long
as the ends are less than `2 ^ 29` apart along each axis there are none, and the line is drawn from
end to end in as many steps as it is long along the longer axis.
-/

namespace MinervaOS.Graphics

/-- The arguments of a call of `graphics_put_pixel`. -/
structure PutPixel where
  x : UInt32
  y : UInt32
  color : UInt32
  deriving DecidableEq

/-- A value of type `int`. -/
def checkInt (n : Int) : Option Int := if -2147483648 ≤ n ∧ n < 2147483648 then some n else none

/-- `int d = (b > a) ? (b - a) : (a - b)`. -/
def intDistance (a b : UInt32) : Int := (if b > a then b - a else a - b).toInt32.toInt

/-- The variables that the loop changes, and the pixels so far. -/
structure Line where
  x0 : UInt32
  y0 : UInt32
  err : Int
  pixels : List PutPixel

namespace Line

/-- `if (e2 > -dy) { err -= dy; x0 += sx; }`. -/
def moveX (dy sx e2 : Int) (s : Line) : Option Line := do
  if e2 > -dy then
    let err ← checkInt (s.err - dy)
    return { s with err := err, x0 := s.x0 + UInt32.ofInt sx }
  else return s

/-- `if (e2 < dx) { err += dx; y0 += sy; }`. -/
def moveY (dx sy e2 : Int) (s : Line) : Option Line := do
  if e2 < dx then
    let err ← checkInt (s.err + dx)
    return { s with err := err, y0 := s.y0 + UInt32.ofInt sy }
  else return s

/-- A pass of the loop. -/
def pass (dx dy sx sy : Int) (x1 y1 color : UInt32) (s : Line) :
    Option (Pass Line (List PutPixel)) := do
  let s := { s with pixels := s.pixels ++ [PutPixel.mk s.x0 s.y0 color] }
  if s.x0 = x1 ∧ s.y0 = y1 then return .inr s.pixels
  let e2 ← checkInt (2 * s.err)
  let s ← s.moveX dy sx e2
  let s ← s.moveY dx sy e2
  return .inl s

end Line

/-- The pixels that are put, if the loop ends within so many passes. -/
def graphicsDrawLine (steps : Nat) (x0 y0 x1 y1 color : UInt32) : Option (List PutPixel) := do
  let dx := intDistance x0 x1
  let dy := intDistance y0 y1
  let sx := if x0 < x1 then 1 else -1
  let sy := if y0 < y1 then 1 else -1
  let err ← checkInt (dx - dy)
  loop (Line.pass dx dy sx sy x1 y1 color) steps ⟨x0, y0, err, []⟩

def graphicsDrawRect (steps : Nat) (x y width height color : UInt32) : Option (List PutPixel) := do
  let top ← graphicsDrawLine steps x y (x + width) y color
  let right ← graphicsDrawLine steps (x + width) y (x + width) (y + height) color
  let bottom ← graphicsDrawLine steps (x + width) (y + height) x (y + height) color
  let left ← graphicsDrawLine steps x (y + height) x y color
  return top ++ right ++ bottom ++ left

/-! ## Along an axis -/

/-- How far two coordinates are apart. -/
def distance (a b : UInt32) : ℕ := ((b.toNat : ℤ) - a.toNat).natAbs

/-- `(a < b) ? 1 : -1`. -/
def direction (a b : UInt32) : ℤ := if a < b then 1 else -1

/-- Behind so many moves from `a` towards `b`. -/
def along (a b : UInt32) (i : ℕ) : UInt32 := a + UInt32.ofInt (i * direction a b)

theorem checkInt_eq {n : ℤ} (h : -2147483648 ≤ n ∧ n < 2147483648) : checkInt n = some n := if_pos h

theorem toInt_toInt32 {n : UInt32} (hn : n.toNat < 2147483648) : n.toInt32.toInt = n.toNat :=
  BitVec.toInt_eq_toNat_of_lt (by
    show 2 * n.toNat < 2 ^ 32
    omega)

theorem intDistance_eq {a b : UInt32} (h : distance a b < 2147483648) :
    intDistance a b = distance a b := by
  unfold intDistance distance at *
  by_cases hab : b > a
  · have hle : a.toNat < b.toNat := UInt32.lt_iff_toNat_lt.1 hab
    have hsub : (b - a).toNat = b.toNat - a.toNat :=
      UInt32.toNat_sub_of_le _ _ (UInt32.le_iff_toNat_le.2 hle.le)
    rw [if_pos hab, toInt_toInt32 (by omega), hsub]
    omega
  · have hle : b.toNat ≤ a.toNat := Nat.not_lt.1 fun h => hab (UInt32.lt_iff_toNat_lt.2 h)
    have hsub : (a - b).toNat = a.toNat - b.toNat :=
      UInt32.toNat_sub_of_le _ _ (UInt32.le_iff_toNat_le.2 hle)
    rw [if_neg hab, toInt_toInt32 (by omega), hsub]
    omega

theorem along_zero (a b : UInt32) : along a b 0 = a := by
  unfold along
  rw [Nat.cast_zero, zero_mul]
  exact UInt32.add_zero a

theorem along_succ (a b : UInt32) (i : ℕ) :
    along a b (i + 1) = along a b i + UInt32.ofInt (direction a b) := by
  unfold along
  rw [Nat.cast_succ, add_mul, one_mul, UInt32.ofInt_add, UInt32.add_assoc]

theorem toNat_ofInt (n : ℤ) : ((UInt32.ofInt n).toNat : ℤ) = n % 4294967296 := by
  have hlt : (n % 4294967296).toNat < 2 ^ 32 := by omega
  show ((UInt32.ofNat (n % 4294967296).toNat).toNat : ℤ) = _
  rw [UInt32.toNat_ofNat', Nat.mod_eq_of_lt hlt]
  omega

theorem toNat_along {a b : UInt32} {i : ℕ} (h : i ≤ distance a b) :
    ((along a b i).toNat : ℤ) = a.toNat + i * direction a b := by
  have ha := a.toNat_lt
  have hb := b.toNat_lt
  have hrange : 0 ≤ (a.toNat : ℤ) + i * direction a b ∧
      (a.toNat : ℤ) + i * direction a b < 4294967296 := by
    unfold distance at h
    unfold direction
    by_cases hab : a < b
    · have hlt := UInt32.lt_iff_toNat_lt.1 hab
      rw [if_pos hab]
      omega
    · rw [UInt32.lt_iff_toNat_lt] at hab
      rw [if_neg (by rwa [UInt32.lt_iff_toNat_lt])]
      omega
  have hmove := toNat_ofInt (i * direction a b)
  unfold along
  rw [UInt32.toNat_add]
  omega

theorem along_ite (a b : UInt32) (i : ℕ) (c : Prop) [Decidable c] :
    along a b (if c then i + 1 else i) =
      if c then along a b i + UInt32.ofInt (direction a b) else along a b i := by
  by_cases h : c
  · rw [if_pos h, if_pos h, along_succ]
  · rw [if_neg h, if_neg h]

/-- The target is reached behind all the moves. -/
theorem along_eq_iff {a b : UInt32} {i : ℕ} (h : i ≤ distance a b) :
    along a b i = b ↔ i = distance a b := by
  have hnat := toNat_along h
  rw [← UInt32.toNat_inj]
  unfold distance direction at *
  by_cases hab : a < b
  · have hlt := UInt32.lt_iff_toNat_lt.1 hab
    rw [if_pos hab] at hnat
    omega
  · have hge : ¬a.toNat < b.toNat := fun h => hab (UInt32.lt_iff_toNat_lt.2 h)
    rw [if_neg hab] at hnat
    omega

theorem along_between {a b : UInt32} {i : ℕ} (h : i ≤ distance a b) :
    min a.toNat b.toNat ≤ (along a b i).toNat ∧ (along a b i).toNat ≤ max a.toNat b.toNat := by
  have hnat := toNat_along h
  unfold distance direction at *
  by_cases hab : a < b
  · have hlt := UInt32.lt_iff_toNat_lt.1 hab
    rw [if_pos hab] at hnat
    omega
  · have hge : ¬a.toNat < b.toNat := fun h => hab (UInt32.lt_iff_toNat_lt.2 h)
    rw [if_neg hab] at hnat
    omega

/-- A move is to the same coordinate or the next one. -/
theorem distance_along {a b : UInt32} {i j : ℕ} (hj : j ≤ distance a b) (h : j = i ∨ j = i + 1) :
    distance (along a b i) (along a b j) ≤ 1 := by
  have hi := toNat_along (a := a) (b := b) (i := i) (by omega)
  have hj' := toNat_along hj
  have hdir : direction a b = 1 ∨ direction a b = -1 := by
    unfold direction
    by_cases hab : a < b
    · exact .inl (if_pos hab)
    · exact .inr (if_neg hab)
  have hnext : ((i + 1 : ℕ) : ℤ) * direction a b = i * direction a b + direction a b := by
    rw [Nat.cast_succ, add_mul, one_mul]
  unfold distance
  rcases h with rfl | rfl
  · omega
  · rw [hnext] at hj'
    omega

/-! ## The loop -/

section Draw

variable {x0 y0 x1 y1 : UInt32} (color : UInt32)

/-- The pixel of step `k`. -/
def pixelAt (x0 y0 x1 y1 color : UInt32) (k : ℕ) : PutPixel :=
  let p := Bresenham.walk (distance x0 x1) (distance y0 y1) k
  ⟨along x0 x1 p.1, along y0 y1 p.2, color⟩

/-- The state behind step `k`. -/
def lineAt (x0 y0 x1 y1 color : UInt32) (k : ℕ) : Line :=
  let p := Bresenham.walk (distance x0 x1) (distance y0 y1) k
  ⟨along x0 x1 p.1, along y0 y1 p.2, Bresenham.err (distance x0 x1) (distance y0 y1) p,
    (List.range k).map (pixelAt x0 y0 x1 y1 color)⟩

theorem moveX_eq {dy sx e2 : ℤ} {s : Line}
    (h : -2147483648 ≤ s.err - dy ∧ s.err - dy < 2147483648) :
    s.moveX dy sx e2 = some { s with
      err := s.err - (if -dy < e2 then dy else 0), x0 :=
        if -dy < e2 then s.x0 + UInt32.ofInt sx else s.x0 } := by
  unfold Line.moveX
  by_cases hmove : e2 > -dy
  · rw [if_pos hmove, if_pos hmove, if_pos hmove, checkInt_eq h]
    rfl
  · rw [if_neg hmove, if_neg hmove, if_neg hmove, sub_zero]
    rfl

theorem moveY_eq {dx sy e2 : ℤ} {s : Line}
    (h : -2147483648 ≤ s.err + dx ∧ s.err + dx < 2147483648) :
    s.moveY dx sy e2 = some { s with
      err := s.err + (if e2 < dx then dx else 0), y0 :=
        if e2 < dx then s.y0 + UInt32.ofInt sy else s.y0 } := by
  unfold Line.moveY
  by_cases hmove : e2 < dx
  · rw [if_pos hmove, if_pos hmove, if_pos hmove, checkInt_eq h]
    rfl
  · rw [if_neg hmove, if_neg hmove, if_neg hmove, add_zero]
    rfl

theorem pass_last :
    Line.pass (distance x0 x1) (distance y0 y1) (direction x0 x1) (direction y0 y1) x1 y1 color
      (lineAt x0 y0 x1 y1 color (max (distance x0 x1) (distance y0 y1))) =
    some
      (.inr ((List.range (max (distance x0 x1) (distance y0 y1) + 1)).map
      (pixelAt x0 y0 x1 y1 color))) := by
  have hlast := @Bresenham.walk_last (distance x0 x1) (distance y0 y1)
  have hx1 : along x0 x1 (distance x0 x1) = x1 := (along_eq_iff le_rfl).2 rfl
  have hy1 : along y0 y1 (distance y0 y1) = y1 := (along_eq_iff le_rfl).2 rfl
  unfold Line.pass lineAt
  rw [List.range_succ, List.map_append, List.map_singleton]
  unfold pixelAt
  dsimp only
  rw [hlast, hx1, hy1, if_pos ⟨rfl, rfl⟩]
  rfl

variable (hx : distance x0 x1 < 536870912) (hy : distance y0 y1 < 536870912)

include hx hy

theorem pass_lineAt {k : ℕ} (hk : k < max (distance x0 x1) (distance y0 y1)) :
    Line.pass (distance x0 x1) (distance y0 y1) (direction x0 x1) (direction y0 y1) x1 y1 color
      (lineAt x0 y0 x1 y1 color k) = some (.inl (lineAt x0 y0 x1 y1 color (k + 1))) := by
  obtain ⟨hlow, hhigh⟩ := Bresenham.err_bounds (Nat.zero_lt_of_lt hk) k
  obtain ⟨hi, hj⟩ := Bresenham.walk_le hk.le
  have hne := Bresenham.walk_ne hk
  have herr := @Bresenham.err_next (distance x0 x1) (distance y0 y1)
    (Bresenham.walk (distance x0 x1) (distance y0 y1) k)
  have hnext : Bresenham.walk (distance x0 x1) (distance y0 y1) (k + 1) =
    Bresenham.next (distance x0 x1)
    (distance y0 y1) (Bresenham.walk (distance x0 x1) (distance y0 y1) k) := rfl
  unfold lineAt Line.pass
  dsimp only
  rw [List.range_succ, List.map_append, List.map_singleton, hnext, herr]
  unfold pixelAt Bresenham.next
  dsimp only
  rw [along_ite, along_ite]
  revert hlow hhigh hi hj hne
  generalize Bresenham.walk (distance x0 x1) (distance y0 y1) k = p
  intro hlow hhigh hi hj hne
  have hgo : ¬(along x0 x1 p.1 = x1 ∧ along y0 y1 p.2 = y1) := fun h =>
    hne (Prod.ext ((along_eq_iff hi).1 h.1) ((along_eq_iff hj).1 h.2))
  rw [if_neg hgo, checkInt_eq (by omega)]
  generalize Bresenham.err (distance x0 x1) (distance y0 y1) p = e at hlow hhigh
  rw [Option.bind_eq_bind, Option.bind_some, moveX_eq (by dsimp only; omega)]
  rw [Option.bind_eq_bind, Option.bind_some, moveY_eq (by dsimp only; split <;> omega)]
  rfl

theorem graphicsDrawLine_eq (steps : ℕ) : graphicsDrawLine steps x0 y0 x1 y1 color =
    if max (distance x0 x1) (distance y0 y1) < steps then
      some
        ((List.range (max (distance x0 x1) (distance y0 y1) + 1)).map (pixelAt x0 y0 x1 y1 color))
    else none := by
  have hstart : lineAt x0 y0 x1 y1 color 0 = ⟨x0, y0, distance x0 x1 - distance y0 y1, []⟩ := by
    unfold lineAt Bresenham.walk Bresenham.err
    dsimp only
    rw [along_zero, along_zero, Nat.cast_zero, zero_add, one_mul, one_mul]
    rfl
  unfold graphicsDrawLine
  dsimp only
  rw [intDistance_eq (by omega), intDistance_eq (by omega), checkInt_eq (by omega),
    Option.bind_eq_bind, Option.bind_some, ← hstart]
  exact loop_of_path (pass_last color) 0 steps (Nat.zero_le _) fun k _ hk =>
    pass_lineAt color hx hy hk

end Draw

/-- Points that a step of the walk may be between. -/
def PutPixel.Adjacent (p q : PutPixel) : Prop := distance p.x q.x ≤ 1 ∧ distance p.y q.y ≤ 1

/-- A point in the bounding box of two others. -/
structure PutPixel.Between (x0 y0 x1 y1 : UInt32) (p : PutPixel) : Prop where
  x : min x0.toNat x1.toNat ≤ p.x.toNat ∧ p.x.toNat ≤ max x0.toNat x1.toNat
  y : min y0.toNat y1.toNat ≤ p.y.toNat ∧ p.y.toNat ≤ max y0.toNat y1.toNat

section Points

variable {x0 y0 x1 y1 : UInt32} (color : UInt32)

theorem pixelAt_adjacent {k : ℕ} (hk : k < max (distance x0 x1) (distance y0 y1)) :
    (pixelAt x0 y0 x1 y1 color k).Adjacent (pixelAt x0 y0 x1 y1 color (k + 1)) := by
  have hnext : Bresenham.walk (distance x0 x1) (distance y0 y1) (k + 1) =
    Bresenham.next (distance x0 x1)
    (distance y0 y1) (Bresenham.walk (distance x0 x1) (distance y0 y1) k) := rfl
  obtain ⟨hi, hj⟩ := Bresenham.walk_le hk
  refine ⟨distance_along hi ?_, distance_along hj ?_⟩
  · rw [hnext]
    unfold Bresenham.next
    dsimp only
    split
    · exact .inr rfl
    · exact .inl rfl
  · rw [hnext]
    unfold Bresenham.next
    dsimp only
    split
    · exact .inr rfl
    · exact .inl rfl

theorem pixelAt_between {k : ℕ} (hk : k ≤ max (distance x0 x1) (distance y0 y1)) :
    (pixelAt x0 y0 x1 y1 color k).Between x0 y0 x1 y1 := by
  obtain ⟨hi, hj⟩ := Bresenham.walk_le hk
  exact ⟨along_between hi, along_between hj⟩

theorem pixelAt_zero : pixelAt x0 y0 x1 y1 color 0 = ⟨x0, y0, color⟩ := by
  unfold pixelAt Bresenham.walk
  dsimp only
  rw [along_zero, along_zero]

theorem pixelAt_last :
    pixelAt x0 y0 x1 y1 color (max (distance x0 x1) (distance y0 y1)) = ⟨x1, y1, color⟩ := by
  unfold pixelAt
  dsimp only
  rw [Bresenham.walk_last, (along_eq_iff le_rfl).2 rfl, (along_eq_iff le_rfl).2 rfl]

end Points

/-- With ends less than `2 ^ 29` apart no sum overflows, and the line goes from end to end by as
many moves as it is long along its longer axis, each to an adjacent point of the bounding box. -/
theorem graphicsDrawLine_ends {x0 y0 x1 y1 : UInt32} (color : UInt32)
    (hx : distance x0 x1 < 536870912)
    (hy : distance y0 y1 < 536870912) : ∃ pixels : List PutPixel,
    (∀ steps, graphicsDrawLine steps x0 y0 x1 y1 color =
      if max (distance x0 x1) (distance y0 y1) < steps then some pixels else none) ∧
    pixels.length = max (distance x0 x1) (distance y0 y1) + 1 ∧
    pixels.head? = some ⟨x0, y0, color⟩ ∧ pixels.getLast? = some ⟨x1, y1, color⟩ ∧
    pixels.IsChain PutPixel.Adjacent ∧ ∀ p ∈ pixels, p.Between x0 y0 x1 y1 := by
  refine ⟨_, graphicsDrawLine_eq color hx hy, ?_, ?_, ?_, ?_, ?_⟩
  · rw [List.length_map, List.length_range]
  · rw [List.range_succ_eq_map, List.map_cons, List.head?_cons, pixelAt_zero]
  · rw [List.range_succ, List.map_append, List.map_singleton, List.getLast?_concat, pixelAt_last]
  · rw [List.isChain_map]
    exact (List.isChain_range_succ _ _).2 fun k hk => pixelAt_adjacent color hk
  · intro p hp
    obtain ⟨k, hk, rfl⟩ := List.mem_map.1 hp
    exact pixelAt_between color (Nat.le_of_lt_succ (List.mem_range.1 hk))

theorem graphicsDrawLine_ends_steep : (distance 2 0 < 536870912 ∧ distance 1 4 < 536870912) ∧
    ∃ pixels : List PutPixel, (∀ steps, graphicsDrawLine steps 2 1 0 4 7 =
      if max (distance 2 0) (distance 1 4) < steps then some pixels else none) ∧
    pixels.length = max (distance 2 0) (distance 1 4) + 1 ∧
    pixels.head? = some ⟨2, 1, 7⟩ ∧ pixels.getLast? = some ⟨0, 4, 7⟩ ∧
    pixels.IsChain PutPixel.Adjacent ∧ ∀ p ∈ pixels, p.Between 2 1 0 4 :=
  ⟨by decide, graphicsDrawLine_ends 7 (by decide) (by decide)⟩

/-! ## Lines along an axis -/

/-- Some pixel is put there. -/
def Puts (pixels : List PutPixel) (x y : UInt32) : Prop := ∃ p ∈ pixels, p.x = x ∧ p.y = y

theorem along_distance {a b c : UInt32}
    (h : min a.toNat b.toNat ≤ c.toNat ∧ c.toNat ≤ max a.toNat b.toNat) :
    distance a c ≤ distance a b ∧ along a b (distance a c) = c := by
  have hle : distance a c ≤ distance a b := by
    unfold distance
    omega
  refine ⟨hle, ?_⟩
  have hnat := toNat_along hle
  rw [← UInt32.toNat_inj]
  unfold distance direction at *
  by_cases hab : a < b
  · have hlt := UInt32.lt_iff_toNat_lt.1 hab
    rw [if_pos hab] at hnat
    omega
  · have hge : ¬a.toNat < b.toNat := fun h => hab (UInt32.lt_iff_toNat_lt.2 h)
    rw [if_neg hab] at hnat
    omega

/-- A line along an axis is all that is between its ends. -/
theorem graphicsDrawLine_axis {x0 y0 x1 y1 : UInt32} (color : UInt32) (haxis : x0 = x1 ∨ y0 = y1)
    (hx : distance x0 x1 < 536870912) (hy : distance y0 y1 < 536870912) {steps : ℕ}
    (hsteps : max (distance x0 x1) (distance y0 y1) < steps) : ∃ pixels,
      graphicsDrawLine steps x0 y0 x1 y1 color = some pixels ∧
      ∀ x y, Puts pixels x y ↔ (⟨x, y, color⟩ : PutPixel).Between x0 y0 x1 y1 := by
  refine ⟨_, (graphicsDrawLine_eq color hx hy steps).trans (if_pos hsteps),
    fun x y => ⟨?_, fun hbetween => ?_⟩⟩
  · intro hputs
    obtain ⟨p, hp, rfl, rfl⟩ := hputs
    obtain ⟨k, hk, rfl⟩ := List.mem_map.1 hp
    have hbetween := @pixelAt_between x0 y0 x1 y1 color k (Nat.le_of_lt_succ (List.mem_range.1 hk))
    exact ⟨hbetween.x, hbetween.y⟩
  obtain ⟨hdx, hxat⟩ := along_distance hbetween.x
  obtain ⟨hdy, hyat⟩ := along_distance hbetween.y
  have hwalk : Bresenham.walk (distance x0 x1) (distance y0 y1) (distance x0 x + distance y0 y) =
      (distance x0 x, distance y0 y) ∧
      distance x0 x + distance y0 y ≤ max (distance x0 x1) (distance y0 y1) := by
    have hself : ∀ a : UInt32, distance a a = 0 := fun a => by
      unfold distance
      omega
    rcases haxis with rfl | rfl
    · rw [hself] at hdx ⊢
      rw [Nat.le_zero.1 hdx, Nat.zero_add, Bresenham.walk_swap, Bresenham.walk_axis hdy]
      exact ⟨rfl, hdy.trans (Nat.le_max_right ..)⟩
    · rw [hself] at hdy ⊢
      rw [Nat.le_zero.1 hdy, Nat.add_zero, Bresenham.walk_axis hdx]
      exact ⟨rfl, hdx.trans (Nat.le_max_left ..)⟩
  refine ⟨_, List.mem_map.2 ⟨_, List.mem_range.2 (Nat.lt_succ_of_le hwalk.2), rfl⟩, ?_⟩
  unfold pixelAt
  rw [hwalk.1]
  exact ⟨hxat, hyat⟩

/-- On the border of a rectangle, which has its last column and its last row beside and below it. -/
def OnBorder (x y width height px py : ℕ) : Prop :=
  ((x ≤ px ∧ px ≤ x + width) ∧ y ≤ py ∧ py ≤ y + height) ∧
    (px = x ∨ px = x + width ∨ py = y ∨ py = y + height)

theorem graphicsDrawRect_border {x y width height : UInt32} (color : UInt32)
    (hx : x.toNat + width.toNat < 536870912) (hy : y.toNat + height.toNat < 536870912) {steps : ℕ}
    (hsteps : max width.toNat height.toNat < steps) : ∃ pixels,
      graphicsDrawRect steps x y width height color = some pixels ∧ ∀ px py, Puts pixels px py ↔
        OnBorder x.toNat y.toNat width.toNat height.toNat px.toNat py.toNat := by
  have hright : (x + width).toNat = x.toNat + width.toNat := by
    rw [UInt32.toNat_add]
    omega
  have hbottom : (y + height).toNat = y.toNat + height.toNat := by
    rw [UInt32.toNat_add]
    omega
  have hline : ∀ {x0 y0 x1 y1 : UInt32}, x0 = x1 ∨ y0 = y1 → distance x0 x1 ≤ width.toNat →
      distance y0 y1 ≤ height.toNat →
        ∃ pixels, graphicsDrawLine steps x0 y0 x1 y1 color = some pixels ∧
        ∀ px py, Puts pixels px py ↔ (⟨px, py, color⟩ : PutPixel).Between x0 y0 x1 y1 :=
          fun haxis hdx hdy =>
    graphicsDrawLine_axis color haxis (by omega) (by omega) (by omega)
  have hself : ∀ a : UInt32, distance a a = 0 := fun a => by
    unfold distance
    omega
  have hdx : distance x (x + width) = width.toNat ∧ distance (x + width) x = width.toNat := by
    unfold distance
    omega
  have hdy : distance y (y + height) = height.toNat ∧ distance (y + height) y = height.toNat := by
    unfold distance
    omega
  obtain ⟨top, htop, htops⟩ :=
    @hline x y (x + width) y (.inr rfl) hdx.1.le ((hself y).le.trans (Nat.zero_le _))
  obtain ⟨right, hrights, hright'⟩ := @hline (x + width) y (x + width) (y + height) (.inl rfl)
    ((hself _).le.trans (Nat.zero_le _)) hdy.1.le
  obtain ⟨bottom, hbottoms, hbottom'⟩ :=
    @hline (x + width) (y + height) x (y + height) (.inr rfl) hdx.2.le
    ((hself _).le.trans (Nat.zero_le _))
  obtain ⟨left, hleft, hlefts⟩ :=
    @hline x (y + height) x y (.inl rfl) ((hself x).le.trans (Nat.zero_le _)) hdy.2.le
  refine ⟨top ++ right ++ bottom ++ left, ?_, fun px py => ?_⟩
  · unfold graphicsDrawRect
    rw [htop, hrights, hbottoms, hleft]
    rfl
  · have happend : ∀ l l' : List PutPixel, Puts (l ++ l') px py ↔ Puts l px py ∨ Puts l' px py :=
        fun l l' => by
      unfold Puts
      simp only [List.mem_append, or_and_right, exists_or]
    have hbetween : ∀ x0 y0 x1 y1 : UInt32, (⟨px, py, color⟩ : PutPixel).Between x0 y0 x1 y1 ↔
        (min x0.toNat x1.toNat ≤ px.toNat ∧ px.toNat ≤ max x0.toNat x1.toNat) ∧
          min y0.toNat y1.toNat ≤ py.toNat ∧ py.toNat ≤ max y0.toNat y1.toNat := fun x0 y0 x1 y1 =>
      ⟨fun h => ⟨h.x, h.y⟩, fun h => ⟨h.1, h.2⟩⟩
    rw [happend, happend, happend, htops, hright', hbottom', hlefts, hbetween, hbetween,
      hbetween, hbetween, hright, hbottom]
    unfold OnBorder
    omega

end MinervaOS.Graphics
