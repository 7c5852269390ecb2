import Mathlib.Data.List.Prime
import Mathlib.NumberTheory.LucasPrimality

/-!
# Certificates of primality

An entry names a number, a base and the factors of the number less one. It passes where the base
has order exactly that number less one, which is Lucas's test; the factors are the numbers of later
entries of the list. A list all of whose entries pass holds primes only (`Pratt.prime`).
-/

namespace MinervaOS.Pratt

/-- The power of `a` modulo `m`, for an exponent of at most `bits` bits. -/
def powMod (m a : ℕ) : ℕ → ℕ → ℕ
  | 0, _ => 1 % m
  | bits + 1, n =>
    let half := powMod m a bits (n / 2)
    let square := half * half % m
    if n.testBit 0 then square * a % m else square

theorem powMod_eq (m a : ℕ) {bits n : ℕ} (h : n < 2 ^ bits) : powMod m a bits n = a ^ n % m := by
  induction bits generalizing n with
  | zero =>
    have hn : n = 0 := by simpa using h
    simp [powMod, hn]
  | succ bits ih =>
    have hhalf : n / 2 < 2 ^ bits := by
      rw [pow_succ] at h
      omega
    rw [powMod, ih hhalf, Nat.testBit_zero]
    rcases Nat.mod_two_eq_zero_or_one n with h2 | h2
    · have hn : n = n / 2 + n / 2 := by omega
      rw [h2, if_neg (by decide), ← Nat.mul_mod, ← pow_add, ← hn]
    · have hn : n = n / 2 + n / 2 + 1 := by omega
      rw [h2, if_pos (by decide), ← Nat.mul_mod, ← pow_add, Nat.mod_mul_mod, ← pow_succ, ← hn]

structure Entry where
  number : ℕ
  base : ℕ
  /-- The primes that divide the number less one, each with its exponent. -/
  factors : List (ℕ × ℕ)

/-- The base raised to an exponent below the number. -/
def Entry.power (e : Entry) (n : ℕ) : ℕ := powMod e.number e.base (e.number.log2 + 1) n

/-- Lucas's test. -/
def Entry.passes (known : List ℕ) (e : Entry) : Bool :=
  1 < e.number && (e.factors.map fun f => f.1 ^ f.2).prod == e.number - 1
    && e.power (e.number - 1) == 1
    && e.factors.all fun f => known.contains f.1 && e.power ((e.number - 1) / f.1) != 1

/-- Every entry passes with the factors that the entries after it certify. -/
def certified : List Entry → Bool
  | [] => true
  | e :: rest => e.passes (rest.map Entry.number) && certified rest

theorem Entry.power_eq_one_iff {e : Entry} (he : 1 < e.number) {n : ℕ} (hn : n < e.number) :
    e.power n = 1 ↔ (e.base : ZMod e.number) ^ n = 1 := by
  have h := ZMod.natCast_eq_natCast_iff' (e.base ^ n) 1 e.number
  rw [Nat.cast_pow, Nat.cast_one, Nat.mod_eq_of_lt he] at h
  rw [h, Entry.power, powMod_eq _ _ (hn.trans Nat.lt_log2_self)]

theorem Entry.prime_of_passes {known : List ℕ} {e : Entry} (hknown : ∀ q ∈ known, q.Prime)
    (h : e.passes known) : e.number.Prime := by
  simp only [Entry.passes, Bool.and_eq_true, decide_eq_true_eq, beq_iff_eq, bne_iff_ne, ne_eq,
    List.all_eq_true, List.contains_iff_mem] at h
  obtain ⟨⟨⟨hone, hprod⟩, hpow⟩, hfactors⟩ := h
  rw [power_eq_one_iff hone (by omega)] at hpow
  refine lucas_primality e.number (e.base : ZMod e.number) hpow fun q hq hdvd => ?_
  rw [← hprod] at hdvd
  -- a prime that divides the product is one of the factors
  obtain ⟨power, hmem, hdvd⟩ := (Nat.Prime.prime hq).dvd_prod_iff.1 hdvd
  obtain ⟨f, hf, rfl⟩ := List.mem_map.1 hmem
  obtain ⟨hfknown, hfpow⟩ := hfactors f hf
  have hqf : q = f.1 :=
    (Nat.prime_dvd_prime_iff_eq hq (hknown _ hfknown)).1 (hq.dvd_of_dvd_pow hdvd)
  have hlt : (e.number - 1) / f.1 < e.number := by
    have := Nat.div_le_self (e.number - 1) f.1
    omega
  rwa [hqf, ne_eq, ← power_eq_one_iff hone hlt]

theorem prime {es : List Entry} (h : certified es) : ∀ e ∈ es, e.number.Prime := by
  induction es with
  | nil => simp
  | cons e rest ih =>
    simp only [certified, Bool.and_eq_true] at h
    have hrest := ih h.2
    refine List.forall_mem_cons.2 ⟨?_, hrest⟩
    refine Entry.prime_of_passes (fun q hq => ?_) h.1
    obtain ⟨e', he', rfl⟩ := List.mem_map.1 hq
    exact hrest e' he'

end MinervaOS.Pratt
