import Mathlib.Order.Lattice
import Mathlib.Data.Set.Insert
import Mathlib.Data.Nat.Notation

/-!
# The span of intervals

The least interval around a set of intervals of one length, given by where these begin. It meets
another interval where there is one of them that is not beyond it on either side
(`Spans.meets_iff`), and an interval more makes it grow to the least and the greatest of the ends
(`Spans.insert`).
-/

namespace MinervaOS

/-- The interval from `lo` on of length `len` is the least one around the intervals of length `n`
that begin in `S`. -/
structure Spans (n : ℕ) (S : Set ℕ) (lo len : ℕ) : Prop where
  inside : ∀ a ∈ S, lo ≤ a ∧ a + n ≤ lo + len
  first : lo ∈ S
  last : ∃ a ∈ S, a + n = lo + len

namespace Spans

variable {n m lo len a x : ℕ} {S : Set ℕ}

theorem single (n a : ℕ) : Spans n {a} a n where
  inside b hb := by
    obtain rfl := Set.mem_singleton_iff.1 hb
    exact ⟨le_rfl, le_rfl⟩
  first := Set.mem_singleton a
  last := ⟨a, Set.mem_singleton a, rfl⟩

theorem insert (h : Spans n S lo len) (a : ℕ) :
    Spans n (insert a S) (min lo a) (max (lo + len) (a + n) - min lo a) := by
  obtain ⟨b, hb, hlast⟩ := h.last
  have hle := (h.inside b hb).1
  refine ⟨fun c hc => ?_, ?_, ?_⟩
  · rcases Set.mem_insert_iff.1 hc with rfl | hc
    · omega
    · have hinside := h.inside c hc
      omega
  · rcases Nat.le_total lo a with hmin | hmin
    · rw [Nat.min_eq_left hmin]
      exact Set.mem_insert_of_mem _ h.first
    · rw [Nat.min_eq_right hmin]
      exact Set.mem_insert _ _
  · rcases Nat.le_total (lo + len) (a + n) with hmax | hmax
    · exact ⟨a, Set.mem_insert _ _, by omega⟩
    · exact ⟨b, Set.mem_insert_of_mem _ hb, by omega⟩

/-- Where the span meets an interval. -/
theorem meets_iff (h : Spans n S lo len) (hn : 0 < n) (hm : 0 < m) :
    (∃ p, (lo ≤ p ∧ p < lo + len) ∧ x ≤ p ∧ p < x + m) ↔
      (∃ a ∈ S, a < x + m) ∧ ∃ a ∈ S, x < a + n := by
  obtain ⟨b, hb, hlast⟩ := h.last
  have hfirst := h.inside lo h.first
  constructor
  · intro hmeets
    obtain ⟨p, hp, hx⟩ := hmeets
    exact ⟨⟨lo, h.first, by omega⟩, b, hb, by omega⟩
  · intro hsides
    obtain ⟨⟨c, hc, hleft⟩, d, hd, hright⟩ := hsides
    have hcinside := h.inside c hc
    have hdinside := h.inside d hd
    exact ⟨max lo x, by omega, by omega⟩

end Spans

end MinervaOS
