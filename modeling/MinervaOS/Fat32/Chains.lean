import Mathlib.Data.List.Perm.Subperm
import MinervaOS.Lib.Walk
import MinervaOS.Fat32.Fields

/-!
# What the directory and the FAT hold together

A volume here is its FAT, as a function from clusters to values, and its root directory, as the list
of its slots. `Tidy` says every live entry's first cluster starts a chain of its own that ends in an
EOC value; `Exact` adds that no two live entries share a name and that every cluster in use lies on
a chain. A call changes one slot and the FAT values of a few clusters, so both are kept by one
argument (`Tidy.change`, `Exact.change`): the chains of the other entries avoid what changed.
-/

namespace MinervaOS.Fat32

structure Vol where
  fat : Nat → Nat
  dir : List Dirent

/-- `!(cluster >= 2 && cluster < FAT32_EOC)`. -/
def ChainEnd (c : Nat) : Prop := c < 2 ∨ fat32Eoc ≤ c

instance : DecidablePred ChainEnd := fun c => inferInstanceAs (Decidable (c < 2 ∨ fat32Eoc ≤ c))

/-- `l` is the chain of a file whose first cluster is `first`: within `[2, hi)`, and ended by an
EOC value, since the values along it are not `0` or `1`. -/
structure Chain (fat : Nat → Nat) (hi first : Nat) (l : List Nat) : Prop where
  walk : Walk fat ChainEnd first l
  lt : ∀ c ∈ l, c < hi
  link : ∀ c ∈ l, 2 ≤ fat c
  empty : l = [] → first = 0

/-- An entry `find_root_entry` would look at the name of. -/
def Live (e : Dirent) : Prop := validFileEntry e = true

instance : DecidablePred Live := fun e => inferInstanceAs (Decidable (validFileEntry e = true))

namespace Chain

variable {fat fat' : Nat → Nat} {hi first : Nat} {l l' : List Nat}

theorem det (h : Chain fat hi first l) (h' : Chain fat hi first l') : l = l' :=
  h.walk.det h'.walk

theorem congr (h : Chain fat hi first l) (hl : ∀ c ∈ l, fat' c = fat c) :
    Chain fat' hi first l where
  walk := h.walk.congr hl
  lt := h.lt
  link c hc := by rw [hl c hc]; exact h.link c hc
  empty := h.empty

theorem two_le (h : Chain fat hi first l) {c : Nat} (hc : c ∈ l) : 2 ≤ c := by
  have := h.walk.not_stop hc
  unfold ChainEnd at this
  omega

theorem nil : Chain fat hi 0 [] where
  walk := .nil (by unfold ChainEnd; omega)
  lt := by simp
  link := by simp
  empty := fun _ => rfl

theorem eq_nil (h : Chain fat hi 0 l) : l = [] := h.det nil

theorem start_mem (h : Chain fat hi first l) (hf : first ≠ 0) : first ∈ l := by
  cases l with
  | nil => exact absurd (h.empty rfl) hf
  | cons a l =>
    cases h.walk with
    | cons _ _ => exact List.mem_cons_self

theorem ne_nil (h : Chain fat hi first l) (hf : first ≠ 0) : l ≠ [] :=
  List.ne_nil_of_mem (h.start_mem hf)

theorem length_le (h : Chain fat hi first l) : l.length ≤ hi := by
  have hsub : l ⊆ List.range hi := fun c hc => List.mem_range.2 (h.lt c hc)
  have := (List.subperm_of_subset h.walk.nodup hsub).length_le
  simpa using this

/-- A chain of one cluster. -/
theorem single {c : Nat} (h2 : 2 ≤ c) (hc : c < hi) (he : c < fat32Eoc)
    (hf : fat32Eoc ≤ fat c) : Chain fat hi c [c] where
  walk := .cons (by unfold ChainEnd; omega) (.nil (.inr hf))
  lt := by simpa using hc
  link := by
    have : fat32Eoc = 268435448 := rfl
    simp only [List.mem_singleton, forall_eq]
    omega
  empty := by simp

/-- The tail of a chain leads to an EOC value, and only the tail does. -/
theorem eoc_last {c : Nat} (h : Chain fat hi first (l ++ [c])) : fat32Eoc ≤ fat c := by
  have hs := h.walk.stop_next_last
  have hl := h.link c (by simp)
  unfold ChainEnd at hs
  omega

/-- A chain with one more cluster linked behind its tail. -/
theorem snoc {c n : Nat} (h : Chain fat hi first (l ++ [c])) (hn : n ∉ l ++ [c]) (h2 : 2 ≤ n)
    (hlt : n < hi) (he : n < fat32Eoc) (hold : ∀ x ∈ l, fat' x = fat x) (hc : fat' c = n)
    (hf : fat32Eoc ≤ fat' n) : Chain fat' hi first (l ++ [c, n]) where
  walk := h.walk.snoc hn (by unfold ChainEnd; omega) hold hc (.inr hf)
  lt x hx := by
    simp only [List.mem_append, List.mem_cons, List.not_mem_nil, or_false] at hx
    rcases hx with hx | rfl | rfl
    · exact h.lt x (by simp [hx])
    · exact h.lt x (by simp)
    · exact hlt
  link x hx := by
    have : fat32Eoc = 268435448 := rfl
    simp only [List.mem_append, List.mem_cons, List.not_mem_nil, or_false] at hx
    rcases hx with hx | rfl | rfl
    · rw [hold x hx]
      exact h.link x (by simp [hx])
    · omega
    · omega
  empty hnil := by simp at hnil

end Chain

namespace Vol

variable {hi root : Nat} {R : List Nat} {V V' : Vol}

/-- Slot `i` holds a live entry whose chain is `l`. -/
def Owns (hi : Nat) (V : Vol) (i : Nat) (l : List Nat) : Prop :=
  ∃ e, V.dir[i]? = some e ∧ Live e ∧ Chain V.fat hi (firstCluster e) l

structure Tidy (hi root : Nat) (R : List Nat) (V : Vol) : Prop where
  root : Chain V.fat hi root R
  root_ne : R ≠ []
  /-- Behind the first slot that starts with `0x00` the directory is zero. -/
  ended : ∀ (i j : Nat) (e e' : Dirent), i < j → V.dir[i]? = some e → V.dir[j]? = some e' →
    e 0 = 0 → ∀ k, e' k = 0
  chained : ∀ (i : Nat) (e : Dirent), V.dir[i]? = some e → Live e →
    ∃ l, Chain V.fat hi (firstCluster e) l
  apart : ∀ i j l l', i ≠ j → V.Owns hi i l → V.Owns hi j l' → l.Disjoint l'
  off_root : ∀ i l, V.Owns hi i l → l.Disjoint R

structure Exact (hi : Nat) (R : List Nat) (V : Vol) : Prop where
  names : ∀ (i j : Nat) (e e' : Dirent), i ≠ j → V.dir[i]? = some e → V.dir[j]? = some e' →
    Live e → Live e' → e.name ≠ e'.name
  used : ∀ c, 2 ≤ c → c < hi → V.fat c ≠ 0 → c ∈ R ∨ ∃ i l, V.Owns hi i l ∧ c ∈ l

theorem Owns.det {i : Nat} {l l' : List Nat} (h : V.Owns hi i l) (h' : V.Owns hi i l') :
    l = l' := by
  obtain ⟨e, he, -, hl⟩ := h
  obtain ⟨e', he', -, hl'⟩ := h'
  obtain rfl : e = e' := by simpa [he] using he'
  exact hl.det hl'

theorem Owns.fat_ne_zero {i : Nat} {l : List Nat} (h : V.Owns hi i l) {c : Nat} (hc : c ∈ l) :
    V.fat c ≠ 0 := by
  obtain ⟨e, -, -, hl⟩ := h
  have := hl.link c hc
  omega

theorem Tidy.root_fat_ne_zero (h : V.Tidy hi root R) {c : Nat} (hc : c ∈ R) : V.fat c ≠ 0 := by
  have := h.root.link c hc
  omega

theorem Tidy.not_live_of_ended (h : V.Tidy hi root R) {i j : Nat} {e e' : Dirent} (hij : i ≤ j)
    (he : V.dir[i]? = some e) (he' : V.dir[j]? = some e') (h0 : e 0 = 0) : ¬Live e' := by
  have hz : e' 0 = 0 := by
    rcases Nat.eq_or_lt_of_le hij with rfl | hlt
    · obtain rfl : e = e' := by simpa [he] using he'
      exact h0
    · exact h.ended i j e e' hlt he he' h0 0
  simp [Live, validFileEntry, hz]

/-- What holds of `V` and of a change to slot `k` and to the FAT values of the clusters in `X` for
the chains of the other slots to stay. -/
structure Change (hi : Nat) (R : List Nat) (V V' : Vol) (k : Nat) (X : Nat → Prop) : Prop where
  dir : ∀ i : Nat, i ≠ k → V'.dir[i]? = V.dir[i]?
  fat : ∀ c, ¬X c → V'.fat c = V.fat c
  off_root : ∀ c ∈ R, ¬X c
  off_others : ∀ i l, i ≠ k → V.Owns hi i l → ∀ c ∈ l, ¬X c

theorem Change.owns {k : Nat} {X : Nat → Prop} (h : Change hi R V V' k X) {i : Nat} {l : List Nat}
    (hi' : i ≠ k) (ho : V.Owns hi i l) : V'.Owns hi i l := by
  have hX := h.off_others i l hi' ho
  obtain ⟨e, he, hl, hc⟩ := ho
  exact ⟨e, (h.dir i hi').trans he, hl, hc.congr fun c hc' => h.fat c (hX c hc')⟩

theorem Change.owns_of (hV : V.Tidy hi root R) {k : Nat} {X : Nat → Prop}
    (h : Change hi R V V' k X) {i : Nat} {l : List Nat} (hi' : i ≠ k) (ho : V'.Owns hi i l) :
    V.Owns hi i l := by
  obtain ⟨e, he, hl, -⟩ := id ho
  rw [h.dir i hi'] at he
  obtain ⟨l₀, hl₀⟩ := hV.chained i e he hl
  have hV₀ : V.Owns hi i l₀ := ⟨e, he, hl, hl₀⟩
  rwa [ho.det (h.owns hi' hV₀)]

theorem Tidy.change (hV : V.Tidy hi root R) {k : Nat} {X : Nat → Prop}
    (h : Change hi R V V' k X)
    (hslot : V'.dir[k]? = V.dir[k]? ∨
      ((∀ (i : Nat) (e : Dirent), i < k → V.dir[i]? = some e → e 0 ≠ 0) ∧
      ∀ e, V'.dir[k]? = some e → e 0 ≠ 0))
    (hk : ∀ e, V'.dir[k]? = some e → Live e → ∃ l, Chain V'.fat hi (firstCluster e) l ∧
      l.Disjoint R ∧ ∀ i l', i ≠ k → V.Owns hi i l' → l.Disjoint l') : V'.Tidy hi root R where
  root := hV.root.congr fun c hc => h.fat c (h.off_root c hc)
  root_ne := hV.root_ne
  ended := by
    intro i j e e' hij he he' h0
    rcases hslot with hs | ⟨hbefore, hnew⟩
    · have hdir : ∀ i, V'.dir[i]? = V.dir[i]? := fun i => by
        by_cases hik : i = k
        · exact hik ▸ hs
        · exact h.dir i hik
      exact hV.ended i j e e' hij (hdir i ▸ he) (hdir j ▸ he') h0
    · have hik : i ≠ k := fun hik => hnew e (hik ▸ he) h0
      rw [h.dir i hik] at he
      have hjk : j ≠ k := fun hjk => hbefore i e (by omega) he h0
      exact hV.ended i j e e' hij he (h.dir j hjk ▸ he') h0
  chained := by
    intro i e he hl
    by_cases hik : i = k
    · subst hik
      obtain ⟨l, hc, -⟩ := hk e he hl
      exact ⟨l, hc⟩
    · obtain ⟨l, hc⟩ := hV.chained i e (h.dir i hik ▸ he) hl
      have ho : V.Owns hi i l := ⟨e, h.dir i hik ▸ he, hl, hc⟩
      exact ⟨l, hc.congr fun c hc' => h.fat c (h.off_others i l hik ho c hc')⟩
  apart := by
    have hside : ∀ i j l l', i = k → j ≠ k → V'.Owns hi i l → V'.Owns hi j l' →
        l.Disjoint l' := by
      rintro i j l l' rfl hjk hl hl'
      obtain ⟨e, he, hlive, hc⟩ := hl
      obtain ⟨l₁, hc₁, -, hd⟩ := hk e he hlive
      obtain rfl := hc.det hc₁
      exact hd j l' hjk (h.owns_of hV hjk hl')
    intro i j l l' hij hl hl'
    by_cases hik : i = k
    · exact hside i j l l' hik (fun hjk => hij (hik.trans hjk.symm)) hl hl'
    · by_cases hjk : j = k
      · exact fun c hc hc' => hside j i l' l hjk hik hl' hl hc' hc
      · exact hV.apart i j l l' hij (h.owns_of hV hik hl) (h.owns_of hV hjk hl')
  off_root := by
    intro i l hl
    by_cases hik : i = k
    · subst hik
      obtain ⟨e, he, hlive, hc⟩ := hl
      obtain ⟨l₁, hc₁, hr, -⟩ := hk e he hlive
      obtain rfl := hc.det hc₁
      exact hr
    · exact hV.off_root i l (h.owns_of hV hik hl)

theorem Exact.change (hV : V.Exact hi R) {k : Nat} {X : Nat → Prop}
    (h : Change hi R V V' k X)
    (hname : ∀ e, V'.dir[k]? = some e → Live e → ∀ (i : Nat) (e' : Dirent), i ≠ k →
      V.dir[i]? = some e' → Live e' → e.name ≠ e'.name)
    (hk : ∀ c, 2 ≤ c → c < hi → V'.fat c ≠ 0 → (X c ∨ ∃ l, V.Owns hi k l ∧ c ∈ l) →
      ∃ l, V'.Owns hi k l ∧ c ∈ l) : V'.Exact hi R where
  names := by
    intro i j e e' hij he he' hl hl'
    by_cases hik : i = k
    · subst hik
      exact hname e he hl j e' hij.symm (h.dir j hij.symm ▸ he') hl'
    · by_cases hjk : j = k
      · subst hjk
        exact (hname e' he' hl' i e hik (h.dir i hik ▸ he) hl).symm
      · exact hV.names i j e e' hij (h.dir i hik ▸ he) (h.dir j hjk ▸ he') hl hl'
  used := by
    intro c h2 hlt hf
    by_cases hX : X c
    · obtain ⟨l, hl⟩ := hk c h2 hlt hf (.inl hX)
      exact .inr ⟨k, l, hl⟩
    · rcases hV.used c h2 hlt (h.fat c hX ▸ hf) with hR | ⟨i, l, ho, hc⟩
      · exact .inl hR
      · by_cases hik : i = k
        · subst hik
          obtain ⟨l', hl'⟩ := hk c h2 hlt hf (.inr ⟨l, ho, hc⟩)
          exact .inr ⟨i, l', hl'⟩
        · exact .inr ⟨i, l, h.owns hik ho, hc⟩

end Vol

end MinervaOS.Fat32
