import Mathlib.Data.List.Basic

/-!
# Frames in a stream

A frame is a header and a body. A `Receiver` is fed the stream of some frames in pieces. It knows a
frame by its header, so no piece may end inside of one; where else the stream is cut makes no
difference to it.
-/

namespace MinervaOS.Framing

variable {α σ : Type*} (header : List α → List α)

def frame (body : List α) : List α := header body ++ body

def stream (bodies : List (List α)) : List α := bodies.flatMap (frame header)

theorem stream_cons (body : List α) (bodies : List (List α)) :
    stream header (body :: bodies) = header body ++ body ++ stream header bodies := by
  rw [stream, List.flatMap_cons]
  rfl

/-- The place `n` of the stream is inside of no header. -/
def Outside (bodies : List (List α)) (n : ℕ) : Prop :=
  ∀ before body after, bodies = before ++ body :: after →
    n ≤ (stream header before).length ∨
      (stream header before).length + (header body).length ≤ n

variable {header}

theorem outside_zero (bodies : List (List α)) : Outside header bodies 0 :=
  fun _ _ _ _ => .inl (Nat.zero_le _)

theorem outside_length (bodies : List (List α)) :
    Outside header bodies (stream header bodies).length := by
  rintro before body after rfl
  refine .inr ?_
  simp only [stream, List.flatMap_append, List.flatMap_cons, frame,
    List.length_append]
  omega

/-- A stream in one piece is cut inside of no header. -/
theorem outside_whole {bodies : List (List α)}
    {ps qs : List (List α)} (h : [stream header bodies] = ps ++ qs) :
    Outside header bodies ps.flatten.length := by
  cases ps with
  | nil => exact outside_zero bodies
  | cons p ps =>
    rw [List.cons_append, List.cons.injEq] at h
    obtain ⟨rfl, hnil⟩ := h
    obtain ⟨rfl, -⟩ := List.append_eq_nil_iff.1 hnil.symm
    rw [List.flatten_cons, List.flatten_nil, List.append_nil]
    exact outside_length bodies

/-- In one frame, a place is at its start or behind its header. -/
theorem outside_one {body : List α} {n : ℕ} (h : n = 0 ∨ (header body).length ≤ n) :
    Outside header [body] n := by
  intro before other after hbodies
  obtain ⟨rfl, rfl, -⟩ : before = [] ∧ body = other ∧ [] = after := by
    cases before with
    | nil =>
      rw [List.nil_append, List.cons.injEq] at hbodies
      exact ⟨rfl, hbodies⟩
    | cons other before => simp at hbodies
  rw [stream, List.flatMap_nil, List.length_nil]
  omega

theorem Outside.tail {body : List α} {bodies : List (List α)} {n : ℕ}
    (h : Outside header (body :: bodies) n) :
    Outside header bodies (n - (frame header body).length) := by
  intro before other after hbodies
  have := h (body :: before) other after (by rw [hbodies, List.cons_append])
  rw [stream_cons, List.length_append] at this
  rw [frame]
  omega

theorem Outside.behind {before : List (List α)} : ∀ {bodies : List (List α)} {n : ℕ},
    Outside header (before ++ bodies) n →
      Outside header bodies (n - (stream header before).length) := by
  induction before with
  | nil => exact fun h => h
  | cons body before ih =>
    intro bodies n h
    have := ih h.tail
    rw [stream_cons, List.length_append, ← Nat.sub_sub]
    exact this

/-- A cut outside of all headers is between two frames or in a body. -/
theorem cut {bodies : List (List α)} : ∀ {p t : List α}, p ++ t = stream header bodies →
    Outside header bodies p.length →
    ∃ before after, bodies = before ++ after ∧
      (p = stream header before ∧ t = stream header after ∨
        ∃ got rest later, after = (got ++ rest) :: later ∧ rest ≠ [] ∧
          p = stream header before ++ (header (got ++ rest) ++ got) ∧
            t = rest ++ stream header later) := by
  induction bodies with
  | nil =>
    intro p t h _
    obtain ⟨rfl, rfl⟩ := List.append_eq_nil_iff.1 h
    exact ⟨[], [], rfl, .inl ⟨rfl, rfl⟩⟩
  | cons body bodies ih =>
    intro p t h hout
    have hp : p <+: stream header (body :: bodies) := ⟨t, h⟩
    have hframe : header body ++ body <+: stream header (body :: bodies) :=
      ⟨stream header bodies, (stream_cons header body bodies).symm⟩
    by_cases hwhole : (header body ++ body).length ≤ p.length
    · obtain ⟨p', rfl⟩ := List.prefix_of_prefix_length_le hframe hp hwhole
      rw [stream_cons, List.append_assoc, List.append_right_inj] at h
      have hout' := hout.tail
      rw [frame, List.length_append, Nat.add_sub_cancel_left] at hout'
      obtain ⟨before, after, rfl, hcut⟩ := ih h hout'
      refine ⟨body :: before, after, rfl, hcut.imp ?_ ?_⟩
      · rintro ⟨rfl, rfl⟩
        exact ⟨by rw [stream_cons], rfl⟩
      · rintro ⟨got, rest, later, rfl, hrest, rfl, rfl⟩
        exact ⟨got, rest, later, rfl, hrest, by rw [stream_cons]; simp only [List.append_assoc],
          rfl⟩
    · have hshort := Nat.lt_of_not_le hwhole
      obtain hnone | hheader := hout [] body bodies rfl
      · obtain rfl := List.eq_nil_of_length_eq_zero (Nat.le_zero.1 hnone)
        exact ⟨[], body :: bodies, rfl, .inl ⟨rfl, h⟩⟩
      · have hheader' : (header body).length ≤ p.length := by
          rw [stream, List.flatMap_nil, List.length_nil] at hheader
          omega
        obtain ⟨q, hq⟩ := List.prefix_of_prefix_length_le hp hframe (Nat.le_of_lt hshort)
        obtain ⟨got, rfl⟩ := List.prefix_of_prefix_length_le
          ((List.prefix_append _ _).trans hframe) hp hheader'
        have hbody : got ++ q = body := by
          rwa [List.append_assoc, List.append_right_inj] at hq
        refine ⟨[], body :: bodies, rfl, .inr ⟨got, q, bodies, by rw [hbody], ?_, ?_, ?_⟩⟩
        · rintro rfl
          rw [List.append_nil] at hbody
          rw [hbody] at hshort
          exact absurd hshort (Nat.lt_irrefl _)
        · rw [hbody]
          rfl
        · rw [stream_cons, ← hbody, List.append_assoc, List.append_assoc, List.append_assoc,
            List.append_right_inj, List.append_right_inj] at h
          exact h

/-- What feeding does, where `done` is what a whole body does and `part got body` what `got` of it
does that has arrived. -/
structure Receiver (header : List α → List α) (Fits : List α → Prop) (Idle : σ → Prop)
    (feed : List α → σ → σ) (done : List α → σ → σ) (part : List α → List α → σ → σ) : Prop where
  nil : ∀ s, feed [] s = s
  idle : ∀ {body s}, Fits body → Idle s → Idle (done body s)
  frame : ∀ {body q s}, Fits body → Idle s →
    feed (header body ++ (body ++ q)) s = feed q (done body s)
  start : ∀ {got rest s}, Fits (got ++ rest) → rest ≠ [] → Idle s →
    feed (header (got ++ rest) ++ got) s = part got (got ++ rest) s
  more : ∀ {got more rest s}, Fits (got ++ (more ++ rest)) → rest ≠ [] → Idle s →
    feed more (part got (got ++ (more ++ rest)) s) = part (got ++ more) (got ++ (more ++ rest)) s
  last : ∀ {got rest q s}, Fits (got ++ rest) → rest ≠ [] → Idle s →
    feed (rest ++ q) (part got (got ++ rest) s) = feed q (done (got ++ rest) s)

namespace Receiver

variable {Fits : List α → Prop} {Idle : σ → Prop} {feed done : List α → σ → σ}
  {part : List α → List α → σ → σ} {bodies : List (List α)} {s : σ}

section

variable (h : Receiver header Fits Idle feed done part)

include h

theorem foldl_idle : (∀ body ∈ bodies, Fits body) → Idle s →
    Idle (bodies.foldl (fun s body => done body s) s) := by
  induction bodies generalizing s with
  | nil => exact fun _ hidle => hidle
  | cons body bodies ih =>
    intro hfits hidle
    rw [List.forall_mem_cons] at hfits
    exact ih hfits.2 (h.idle hfits.1 hidle)

theorem feed_stream {q : List α} : (∀ body ∈ bodies, Fits body) → Idle s →
    feed (stream header bodies ++ q) s =
      feed q (bodies.foldl (fun s body => done body s) s) := by
  induction bodies generalizing s with
  | nil => exact fun _ _ => rfl
  | cons body bodies ih =>
    intro hfits hidle
    rw [List.forall_mem_cons] at hfits
    rw [stream_cons, List.append_assoc, List.append_assoc, h.frame hfits.1 hidle,
      ih hfits.2 (h.idle hfits.1 hidle), List.foldl_cons]

/-- What the pieces of a stream do, from between two frames or from inside of a body. -/
theorem foldl_feed (payloads : List (List α)) :
    (∀ {bodies s}, (∀ body ∈ bodies, Fits body) → Idle s → payloads.flatten = stream header bodies →
      (∀ ps qs, payloads = ps ++ qs → Outside header bodies ps.flatten.length) →
      payloads.foldl (fun s p => feed p s) s = bodies.foldl (fun s body => done body s) s) ∧
    ∀ {got rest bodies s}, Fits (got ++ rest) → (∀ body ∈ bodies, Fits body) → Idle s → rest ≠ [] →
      payloads.flatten = rest ++ stream header bodies →
      (∀ ps qs, payloads = ps ++ qs → Outside header bodies (ps.flatten.length - rest.length)) →
      payloads.foldl (fun s p => feed p s) (part got (got ++ rest) s) =
        bodies.foldl (fun s body => done body s) (done (got ++ rest) s) := by
  induction payloads with
  | nil =>
    constructor
    · intro bodies s hfits hidle hflat _
      have := h.feed_stream (q := []) hfits hidle
      rwa [← hflat, List.flatten_nil, List.append_nil, h.nil, h.nil] at this
    · intro got rest bodies s _ _ _ hrest hflat _
      exact absurd (List.append_eq_nil_iff.1 hflat.symm).1 hrest
  | cons p payloads ih =>
    have hbetween : ∀ {p bodies s}, (∀ body ∈ bodies, Fits body) → Idle s →
        (p :: payloads).flatten = stream header bodies →
        (∀ ps qs, p :: payloads = ps ++ qs → Outside header bodies ps.flatten.length) →
        (p :: payloads).foldl (fun s p => feed p s) s =
          bodies.foldl (fun s body => done body s) s := by
      intro p bodies s hfits hidle hflat hout
      rw [List.flatten_cons] at hflat
      have hout' : ∀ ps qs, payloads = ps ++ qs →
          Outside header bodies (p.length + ps.flatten.length) := fun ps qs hps => by
        have := hout (p :: ps) qs (by rw [hps, List.cons_append])
        rwa [List.flatten_cons, List.length_append] at this
      obtain ⟨before, after, rfl, hcut⟩ := cut hflat
        (by simpa using hout' [] payloads rfl)
      rw [List.forall_mem_append] at hfits
      have hstart := h.foldl_idle hfits.1 hidle
      rw [List.foldl_cons, List.foldl_append]
      obtain ⟨rfl, htail⟩ | ⟨got, rest, later, rfl, hrest, rfl, htail⟩ := hcut
      · have hfeed := h.feed_stream (q := []) hfits.1 hidle
        rw [List.append_nil, h.nil] at hfeed
        rw [hfeed]
        refine ih.1 hfits.2 hstart htail fun ps qs hps => ?_
        have := (hout' ps qs hps).behind
        rwa [Nat.add_sub_cancel_left] at this
      · rw [List.forall_mem_cons] at hfits
        rw [h.feed_stream hfits.1 hidle, h.start hfits.2.1 hrest hstart, List.foldl_cons]
        refine ih.2 hfits.2.1 hfits.2.2 hstart hrest htail fun ps qs hps => ?_
        have := (hout' ps qs hps).behind.tail
        rw [Framing.frame] at this
        simp only [List.length_append] at this
        convert this using 1
        omega
    refine ⟨hbetween, ?_⟩
    intro got rest bodies s hfit hfits hidle hrest hflat hout
    rw [List.flatten_cons] at hflat
    have hp : p <+: rest ++ stream header bodies := ⟨_, hflat⟩
    by_cases hlong : rest.length ≤ p.length
    · obtain ⟨q, rfl⟩ := List.prefix_of_prefix_length_le (List.prefix_append _ _) hp hlong
      rw [List.append_assoc, List.append_right_inj] at hflat
      rw [List.foldl_cons, h.last hfit hrest hidle]
      refine hbetween hfits (h.idle hfit hidle) hflat fun ps qs hps => ?_
      cases ps with
      | nil => exact outside_zero bodies
      | cons a ps =>
        obtain ⟨rfl, rfl⟩ := List.cons.inj hps
        have := hout ((rest ++ q) :: ps) qs rfl
        rwa [List.flatten_cons, List.append_assoc, List.length_append, Nat.add_sub_cancel_left]
          at this
    · obtain ⟨later, rfl⟩ := List.prefix_of_prefix_length_le hp (List.prefix_append _ _)
        (Nat.le_of_not_le hlong)
      have hlater : later ≠ [] := by
        rintro rfl
        rw [List.append_nil] at hlong
        exact hlong (Nat.le_refl _)
      rw [List.append_assoc, List.append_right_inj] at hflat
      rw [List.foldl_cons, h.more hfit hlater hidle]
      rw [← List.append_assoc] at hfit ⊢
      refine ih.2 hfit hfits hidle hlater hflat fun ps qs hps => ?_
      have := hout (p :: ps) qs (by rw [hps, List.cons_append])
      rwa [List.flatten_cons, List.length_append, List.length_append, Nat.add_sub_add_left] at this

/-- However the stream is cut outside of the headers, it does what its bodies do. -/
theorem foldl_pieces {payloads : List (List α)} (hfits : ∀ body ∈ bodies, Fits body) (hidle : Idle s)
    (hflat : payloads.flatten = stream header bodies)
    (hout : ∀ ps qs, payloads = ps ++ qs → Outside header bodies ps.flatten.length) :
    payloads.foldl (fun s p => feed p s) s = bodies.foldl (fun s body => done body s) s :=
  (h.foldl_feed payloads).1 hfits hidle hflat hout

end

end Receiver

end MinervaOS.Framing
