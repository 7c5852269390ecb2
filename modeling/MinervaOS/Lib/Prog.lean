import Mathlib.Logic.Basic

/-!
# Programs that may not return

A program is a state transformer into `Option`: `none` is a run that never returns. `Total m s Q`
says that `m` returns from `s`, in a result and a state that satisfy `Q`; the rules below take it
apart along the program, so a loop or a call is replaced by what is known about it (`Total.mono`).
-/

namespace MinervaOS

/-- A program over the states `σ`; `none` is a run that never returns. -/
abbrev Prog (σ α : Type) := StateT σ Option α

namespace Prog

variable {σ α β : Type}

/-- `m` returns from `s`, and the result and the state it returns in satisfy `Q`. -/
def Total (m : Prog σ α) (s : σ) (Q : α → σ → Prop) : Prop :=
  ∃ a s', m s = some (a, s') ∧ Q a s'

theorem Total.mono {m : Prog σ α} {s : σ} {Q Q' : α → σ → Prop} (h : Total m s Q)
    (hQ : ∀ a s', Q a s' → Q' a s') : Total m s Q' := by
  obtain ⟨a, s', hm, hq⟩ := h
  exact ⟨a, s', hm, hQ a s' hq⟩

theorem Total.and {m : Prog σ α} {s : σ} {Q Q' : α → σ → Prop} (h : Total m s Q)
    (h' : Total m s Q') : Total m s (fun a s' => Q a s' ∧ Q' a s') := by
  obtain ⟨a, s', hm, hq⟩ := h
  obtain ⟨b, t, hm', hq'⟩ := h'
  rw [hm] at hm'
  obtain ⟨rfl, rfl⟩ := by simpa using hm'
  exact ⟨a, s', hm, hq, hq'⟩

/-- A program has one result, so what is known of some result holds of the one computed. -/
theorem Total.of_eq {m : Prog σ α} {s s' : σ} {a : α} {Q : α → σ → Prop} (h : Total m s Q)
    (hm : m s = some (a, s')) : Q a s' := by
  obtain ⟨b, t, hm', hq⟩ := h
  rw [hm] at hm'
  obtain ⟨rfl, rfl⟩ := by simpa using hm'
  exact hq

theorem Total.with_eq {m : Prog σ α} {s : σ} {Q : α → σ → Prop} (h : Total m s Q) :
    Total m s fun a s' => m s = some (a, s') ∧ Q a s' := by
  obtain ⟨a, s', hm, hq⟩ := h
  exact ⟨a, s', hm, hm, hq⟩

@[simp] theorem total_pure (a : α) (s : σ) (Q : α → σ → Prop) :
    Total (pure a) s Q ↔ Q a s := by
  constructor
  · intro h
    exact h.of_eq rfl
  · exact fun h => ⟨a, s, rfl, h⟩

@[simp] theorem total_bind (m : Prog σ α) (f : α → Prog σ β) (s : σ) (Q : β → σ → Prop) :
    Total (m >>= f) s Q ↔ Total m s (fun a s' => Total (f a) s' Q) := by
  simp only [Total, bind, StateT.bind]
  constructor
  · rintro ⟨b, t, h, hq⟩
    rcases hm : m s with _ | ⟨a, s'⟩
    · simp [hm] at h
    · exact ⟨a, s', rfl, b, t, by simpa [hm] using h, hq⟩
  · rintro ⟨a, s', hm, b, t, h, hq⟩
    exact ⟨b, t, by simp [hm, h], hq⟩

@[simp] theorem total_map (m : Prog σ α) (f : α → β) (s : σ) (Q : β → σ → Prop) :
    Total (f <$> m) s Q ↔ Total m s (fun a s' => Q (f a) s') := by
  rw [map_eq_pure_bind, total_bind]
  simp only [total_pure]

@[simp] theorem total_get (s : σ) (Q : σ → σ → Prop) :
    Total (get : Prog σ σ) s Q ↔ Q s s := by
  constructor
  · intro h
    exact h.of_eq rfl
  · exact fun h => ⟨s, s, rfl, h⟩

@[simp] theorem total_set (s t : σ) (Q : PUnit → σ → Prop) :
    Total (set t : Prog σ PUnit) s Q ↔ Q ⟨⟩ t := by
  constructor
  · intro h
    exact h.of_eq rfl
  · exact fun h => ⟨⟨⟩, t, rfl, h⟩

@[simp] theorem total_modify (f : σ → σ) (s : σ) (Q : PUnit → σ → Prop) :
    Total (modify f : Prog σ PUnit) s Q ↔ Q ⟨⟩ (f s) := by
  constructor
  · intro h
    exact h.of_eq rfl
  · exact fun h => ⟨⟨⟩, f s, rfl, h⟩

theorem total_ite {c : Prop} [Decidable c] (m m' : Prog σ α) (s : σ) (Q : α → σ → Prop) :
    Total (if c then m else m') s Q ↔ (c → Total m s Q) ∧ (¬c → Total m' s Q) := by
  by_cases h : c <;> simp [h]

/-- An `if` without an `else`. -/
def when (c : Prop) [Decidable c] (p : Prog σ Unit) : Prog σ Unit := if c then p else pure ()

theorem total_when {c : Prop} [Decidable c] {p : Prog σ Unit} {s : σ} {Q : Unit → σ → Prop} :
    Total (when c p) s Q ↔ (c → Total p s Q) ∧ (¬c → Q () s) := by
  rw [when, total_ite, total_pure]

/-- The first part run. -/
theorem total_bind_of_eq {m : Prog σ α} {f : α → Prog σ β} {s s' : σ} {a : α} {Q : β → σ → Prop}
    (hm : m s = some (a, s')) : Total (m >>= f) s Q ↔ Total (f a) s' Q := by
  rw [total_bind]
  exact ⟨fun h => h.of_eq hm, fun h => ⟨a, s', hm, h⟩⟩

/-! ## Programs that return from every state -/

def Returns (p : Prog σ α) : Prop := ∀ s, Total p s fun _ _ => True

theorem Returns.pure (a : α) : Returns (pure a : Prog σ α) := fun _ => (total_pure ..).2 trivial

theorem Returns.bind {p : Prog σ α} {f : α → Prog σ β} (hp : Returns p) (hf : ∀ a, Returns (f a)) :
    Returns (p >>= f) :=
  fun s => (total_bind ..).2 ((hp s).mono fun a s' _ => hf a s')

theorem Returns.ite {c : Prop} [Decidable c] {p q : Prog σ α} (hp : c → Returns p)
    (hq : ¬c → Returns q) : Returns (if c then p else q) :=
  fun s => (total_ite ..).2 ⟨fun h => hp h s, fun h => hq h s⟩

theorem Returns.get : Returns (get : Prog σ σ) := fun _ => (total_get ..).2 trivial

theorem Returns.set (s : σ) : Returns (set s : Prog σ PUnit) := fun _ => (total_set ..).2 trivial

theorem Returns.modify (f : σ → σ) : Returns (modify f : Prog σ PUnit) := fun _ =>
  (total_modify ..).2 trivial

/-! ## Programs that may not return -/

/-- Where `p` returns from `s`, the result and the state satisfy `Q`. -/
def Meets (p : Prog σ α) (s : σ) (Q : α → σ → Prop) : Prop :=
  ∀ a s', p s = some (a, s') → Q a s'

section Meets

variable {s : σ} {Q : α → σ → Prop}

theorem Total.meets {p : Prog σ α} (h : Total p s Q) : Meets p s Q := fun _ _ hm => h.of_eq hm

theorem Meets.mono {p : Prog σ α} {Q' : α → σ → Prop} (h : Meets p s Q)
    (hQ : ∀ a s', Q a s' → Q' a s') : Meets p s Q' := fun a s' hm => hQ a s' (h a s' hm)

theorem Meets.pure {a : α} (h : Q a s) : Meets (pure a : Prog σ α) s Q :=
  ((total_pure ..).2 h).meets

theorem Meets.get {Q : σ → σ → Prop} (h : Q s s) : Meets (get : Prog σ σ) s Q :=
  ((total_get ..).2 h).meets

theorem Meets.set {t : σ} {Q : PUnit → σ → Prop} (h : Q ⟨⟩ t) : Meets (set t : Prog σ PUnit) s Q :=
  ((total_set ..).2 h).meets

theorem Meets.modify {f : σ → σ} {Q : PUnit → σ → Prop} (h : Q ⟨⟩ (f s)) :
    Meets (modify f : Prog σ PUnit) s Q := ((total_modify ..).2 h).meets

theorem Meets.bind {p : Prog σ α} {f : α → Prog σ β} {Q : β → σ → Prop}
    (h : Meets p s fun a s' => Meets (f a) s' Q) : Meets (p >>= f) s Q := by
  intro b s' hm
  obtain ⟨a, s₁, hrun, h₁⟩ := (total_bind p f s fun b' t => b' = b ∧ t = s').1 ⟨b, s', hm, rfl, rfl⟩
  obtain ⟨_, _, hrest, rfl, rfl⟩ := h₁
  exact h a s₁ hrun _ _ hrest

theorem Meets.ite {c : Prop} [Decidable c] {p q : Prog σ α} (hp : c → Meets p s Q)
    (hq : ¬c → Meets q s Q) : Meets (if c then p else q) s Q := by
  by_cases h : c
  · rw [if_pos h]
    exact hp h
  · rw [if_neg h]
    exact hq h

theorem Meets.when {c : Prop} [Decidable c] {p : Prog σ Unit} {Q : Unit → σ → Prop}
    (hp : c → Meets p s Q) (hq : ¬c → Q () s) : Meets (when c p) s Q :=
  Meets.ite hp fun h => Meets.pure (hq h)

theorem Meets.failure : Meets (failure : Prog σ α) s Q := fun _ _ h =>
  absurd h.symm (Option.some_ne_none _)

theorem Meets.and {p : Prog σ α} {Q' : α → σ → Prop} (h : Meets p s Q) (h' : Meets p s Q') :
    Meets p s fun a s' => Q a s' ∧ Q' a s' := fun a s' hm => ⟨h a s' hm, h' a s' hm⟩

theorem Total.and_meets {p : Prog σ α} {Q' : α → σ → Prop} (h : Total p s Q) (h' : Meets p s Q') :
    Total p s fun a s' => Q a s' ∧ Q' a s' := by
  obtain ⟨a, s', hm, hq⟩ := h
  exact ⟨a, s', hm, hq, h' a s' hm⟩

end Meets

/-- Where `p` returns from a state of `Inv`, it returns in one. -/
def Keeps (Inv : σ → Prop) (p : Prog σ α) : Prop :=
  ∀ s a s', Inv s → p s = some (a, s') → Inv s'

section Keeps

variable {Inv : σ → Prop}

theorem Keeps.pure (a : α) : Keeps Inv (pure a : Prog σ α) := fun s _ _ hs h =>
  (total_pure a s fun _ t => Inv t).2 hs |>.of_eq h

theorem Keeps.bind {p : Prog σ α} {f : α → Prog σ β} (hp : Keeps Inv p)
    (hf : ∀ a, Keeps Inv (f a)) :
    Keeps Inv (p >>= f) := by
  intro s b s' hs
  exact Meets.bind (fun a s₁ hrun => fun b s' => hf a s₁ b s' (hp s a s₁ hs hrun)) b s'

/-- The result of the first part satisfies `R`. -/
theorem Keeps.bind_of {R : α → Prop} {p : Prog σ α} {f : α → Prog σ β}
    (hp : ∀ s, Inv s → Meets p s fun a s' => Inv s' ∧ R a) (hf : ∀ a, R a → Keeps Inv (f a)) :
    Keeps Inv (p >>= f) := by
  intro s b s' hs
  exact Meets.bind (fun a s₁ hrun b s' =>
    hf a (hp s hs a s₁ hrun).2 s₁ b s' (hp s hs a s₁ hrun).1) b s'

theorem Keeps.ite {c : Prop} [Decidable c] {p q : Prog σ α} (hp : c → Keeps Inv p)
    (hq : ¬c → Keeps Inv q) : Keeps Inv (if c then p else q) := by
  by_cases h : c
  · rw [if_pos h]
    exact hp h
  · rw [if_neg h]
    exact hq h

theorem Keeps.when {c : Prop} [Decidable c] {p : Prog σ Unit} (hp : c → Keeps Inv p) :
    Keeps Inv (when c p) := Keeps.ite hp fun _ => .pure ()

theorem Keeps.and {Inv' : σ → Prop} {p : Prog σ α} (h : Keeps Inv p) (h' : Keeps Inv' p) :
    Keeps (fun s => Inv s ∧ Inv' s) p :=
  fun s a s' hs hm => ⟨h s a s' hs.1 hm, h' s a s' hs.2 hm⟩

theorem Keeps.get : Keeps Inv (get : Prog σ σ) := fun s _ _ hs h =>
  (total_get s fun _ t => Inv t).2 hs |>.of_eq h

theorem Keeps.modify {f : σ → σ} (hf : ∀ s, Inv s → Inv (f s)) :
    Keeps Inv (modify f : Prog σ PUnit) := fun s _ _ hs h =>
  (total_modify f s fun _ t => Inv t).2 (hf s hs) |>.of_eq h

theorem Keeps.meets {p : Prog σ α} {s : σ} (h : Keeps Inv p) (hs : Inv s) :
    Meets p s fun _ t => Inv t := fun a t hm => h s a t hs hm

theorem Keeps.failure : Keeps Inv (failure : Prog σ α) := fun _ _ _ _ h => nomatch h

end Keeps

/-! ## Runs -/

variable {κ : Type} (step : κ → Prog σ β)

/-- The steps one after the other, with what each returned. -/
def runAll : List κ → Prog σ (List β)
  | [] => pure []
  | c :: cs => do
    let b ← step c
    let bs ← runAll cs
    return b :: bs

/-- Every step of the run is taken in a state that satisfies `P`. -/
def Along (P : κ → σ → Prop) : List κ → σ → Prop
  | [], _ => True
  | c :: cs, s => P c s ∧ ∀ b s', step c s = some (b, s') → Along P cs s'

instance decidableAlong {P : κ → σ → Prop} [∀ c s, Decidable (P c s)] :
    ∀ (cs : List κ) (s : σ), Decidable (Along step P cs s)
  | [], _ => isTrue trivial
  | c :: cs, s =>
    match hc : step c s with
    | none => decidable_of_iff (P c s) ⟨fun h => ⟨h, fun _ _ hm => by simp [hc] at hm⟩, And.left⟩
    | some (b, s') =>
      have : Decidable (Along step P cs s') := decidableAlong cs s'
      decidable_of_iff (P c s ∧ Along step P cs s')
        ⟨fun h => ⟨h.1, fun _ _ hm => by cases hc.symm.trans hm; exact h.2⟩,
          fun h => ⟨h.1, h.2 b s' hc⟩⟩

/-- What each step preserves, a run preserves. -/
theorem total_runAll {P : κ → σ → Prop} {Inv : σ → Prop}
    (h : ∀ c s, Inv s → P c s → Total (step c) s fun _ s' => Inv s') :
    ∀ (cs : List κ) (s : σ), Inv s → Along step P cs s → Total (runAll step cs) s fun _ s' => Inv s'
  | [], s, hs, _ => (total_pure ..).2 hs
  | c :: cs, s, hs, ⟨hP, hrest⟩ => by
    obtain ⟨b, s', hm, hs'⟩ := h c s hs hP
    refine (total_bind ..).2 ⟨b, s', hm, (total_bind ..).2 ?_⟩
    refine (total_runAll h cs s' hs' (hrest b s' hm)).mono fun bs s'' hs'' => ?_
    exact (total_pure ..).2 hs''

/-- Where a step keeps `Good` exactly when it is taken in a state that satisfies `P`, a run has it
in every state that it reaches exactly when `P` holds along it. -/
theorem total_runAll_iff {P : κ → σ → Prop} {I Good : σ → Prop}
    (hinv : ∀ c s, I s → Total (step c) s fun _ s' => I s')
    (hgood : ∀ c s, I s → Good s → Total (step c) s fun _ s' => Good s' ↔ P c s) :
    ∀ (cs : List κ) (s : σ), I s → Good s →
      ((∀ pre, pre <+: cs → Total (runAll step pre) s fun _ s' => Good s') ↔ Along step P cs s)
  | [], s, _, hg => by
    refine iff_of_true (fun pre hpre => ?_) trivial
    rw [List.prefix_nil.1 hpre]
    exact (total_pure ..).2 hg
  | c :: cs, s, hs, hg => by
    obtain ⟨b, s', hm, hs', hiff⟩ := (hinv c s hs).and (hgood c s hs hg)
    have hfirst : ∀ pre, Total (runAll step (c :: pre)) s (fun _ t => Good t) ↔
        Total (runAll step pre) s' fun _ t => Good t := by
      intro pre
      simp only [runAll, total_bind, total_pure]
      exact ⟨fun h => h.of_eq hm, fun h => ⟨b, s', hm, h⟩⟩
    constructor
    · intro h
      have hg' : Good s' := by
        simpa [runAll] using (hfirst []).1 (h [c] ⟨cs, rfl⟩)
      refine ⟨hiff.1 hg', fun b' t ht => ?_⟩
      obtain ⟨rfl, rfl⟩ := Prod.mk.inj (Option.some.inj (hm.symm.trans ht))
      refine (total_runAll_iff hinv hgood cs s' hs' hg').1 fun pre hpre => ?_
      exact (hfirst pre).1 (h (c :: pre) (List.cons_prefix_cons.2 ⟨rfl, hpre⟩))
    · rintro ⟨hP, hrest⟩ pre hpre
      cases pre with
      | nil => exact (total_pure ..).2 hg
      | cons c' pre =>
        obtain ⟨rfl, hpre'⟩ := List.cons_prefix_cons.1 hpre
        exact (hfirst pre).2 ((total_runAll_iff hinv hgood cs s' hs' (hiff.2 hP)).2
          (hrest b s' hm) pre hpre')

/-- What a step preserves where it returns, a run does. -/
theorem meets_runAll {P : κ → σ → Prop} {I : σ → Prop}
    (h : ∀ c s, I s → P c s → Meets (step c) s fun _ s' => I s') :
    ∀ (cs : List κ) (s : σ), I s → Along step P cs s → ∀ pre, pre <+: cs →
      Meets (runAll step pre) s fun _ s' => I s'
  | cs, s, hs, _, [], _ => Meets.pure hs
  | cs, s, hs, hP, c :: pre, hpre => by
    obtain ⟨cs, rfl⟩ := hpre
    obtain ⟨hc, hrest⟩ := hP
    refine Meets.bind fun b s₁ hm => Meets.bind ?_
    refine (meets_runAll h (pre ++ cs) s₁ (h c s hs hc b s₁ hm) (hrest b s₁ hm) pre
      (List.prefix_append pre cs)).mono fun bs s₂ hs₂ => ?_
    exact Meets.pure hs₂

theorem Along.mono {P P' : κ → σ → Prop} (h : ∀ c s, P c s → P' c s) :
    ∀ {cs : List κ} {s : σ}, Along step P cs s → Along step P' cs s
  | [], _, _ => trivial
  | c :: _, s, ⟨hP, hrest⟩ => ⟨h c s hP, fun b s' hm => (hrest b s' hm).mono h⟩

theorem Along.restrict {P : κ → σ → Prop} :
    ∀ {pre cs : List κ} {s : σ}, pre <+: cs → Along step P cs s → Along step P pre s
  | [], _, _, _, _ => trivial
  | c :: pre, cs, s, hpre, h => by
    obtain ⟨post, rfl⟩ := hpre
    exact ⟨h.1, fun b s' hm => (h.2 b s' hm).restrict (List.prefix_append pre post)⟩

/-- A condition under which every step preserves the invariant gives what the invariant gives. -/
theorem Along.of_inv {P P' : κ → σ → Prop} {Inv : σ → Prop}
    (hstep : ∀ c s b s', Inv s → P c s → step c s = some (b, s') → Inv s')
    (h : ∀ c s, Inv s → P c s → P' c s) :
    ∀ (cs : List κ) (s : σ), Inv s → Along step P cs s → Along step P' cs s
  | [], _, _, _ => trivial
  | c :: cs, s, hs, ⟨hP, hrest⟩ => ⟨h c s hs hP, fun b s' hm =>
      Along.of_inv hstep h cs s' (hstep c s b s' hs hP hm) (hrest b s' hm)⟩

/-- Two conditions that agree wherever a run can get to hold along the same runs. -/
theorem along_congr {P P' : κ → σ → Prop} {Inv : σ → Prop}
    (hstep : ∀ c s b s', Inv s → step c s = some (b, s') → Inv s')
    (h : ∀ c s, Inv s → (P c s ↔ P' c s)) :
    ∀ (cs : List κ) (s : σ), Inv s → (Along step P cs s ↔ Along step P' cs s)
  | [], _, _ => Iff.rfl
  | c :: cs, s, hs => and_congr (h c s hs) (forall_congr' fun b => forall_congr' fun s' =>
      imp_congr_right fun hm => along_congr hstep h cs s' (hstep c s b s' hs hm))

theorem along_of_forall {P : κ → σ → Prop} (h : ∀ c s, P c s) :
    ∀ (cs : List κ) (s : σ), Along step P cs s
  | [], _ => trivial
  | c :: cs, s => ⟨h c s, fun _ s' _ => along_of_forall h cs s'⟩

end Prog

end MinervaOS
