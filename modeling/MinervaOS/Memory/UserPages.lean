import MinervaOS.Memory.Paging

/-!
# What ring 3 reaches

`usermode_init` gives three pages of the identity map to the user: those of the two programs and of
their stack. In every state after it, while the kernel maps device memory for itself only, ring 3
reaches these pages and no others (`userPages_reached`).
-/

namespace MinervaOS.Memory

/-- Where the linker has put the programs of ring 3 and their stack, all in the identity map. -/
structure UserImage where
  testEntry : UInt32
  faultEntry : UInt32
  stack : UInt32
  testEntry_low : testEntry.toNat < 4 * 1024 * 1024
  faultEntry_low : faultEntry.toNat < 4 * 1024 * 1024
  stack_low : stack.toNat < 4 * 1024 * 1024

def SamePage (v w : UInt32) : Prop := v.toNat / 4096 = w.toNat / 4096

instance (v w : UInt32) : Decidable (SamePage v w) := inferInstanceAs (Decidable (_ = _))

def UserPage (img : UserImage) (v : UInt32) : Prop :=
  SamePage v img.testEntry ∨ SamePage v img.faultEntry ∨ SamePage v img.stack

instance (img : UserImage) (v : UInt32) : Decidable (UserPage img v) :=
  inferInstanceAs (Decidable (_ ∨ _ ∨ _))

def pageBase (address : UInt32) : UInt32 := address &&& ~~~0xFFF

section

variable (st : Statics) (img : UserImage)

def usermodeInit (s : Machine) : Machine :=
  let codePage := pageBase img.testEntry
  let faultCodePage := pageBase img.faultEntry
  let stackPage := pageBase img.stack
  let s := pagingMap st s codePage codePage (pageWritable ||| pageUser)
  let s := if faultCodePage ≠ codePage then
      pagingMap st s faultCodePage faultCodePage (pageWritable ||| pageUser)
    else s
  pagingMap st s stackPage stackPage (pageWritable ||| pageUser)

/-- Ring 3 reaches the address. -/
def userAccess (s : Machine) (v : UInt32) : Bool :=
  match translate st s v with
  | some m => m.user
  | none => false

/-- The states from `usermode_init` on. The device memory of `paging_map_range` is off the pages of
the programs, and everything else keeps off the tables. -/
inductive Booted : Machine → Prop
  | boot {s : Machine} : Owned st s.pmm → Booted (usermodeInit st img (pagingInit st s))
  | mapRange {s t : Machine} (fuel : ℕ) (virt phys size : UInt32) : Booted s →
      (∀ offset < size, ¬UserPage img (virt + offset)) →
      pagingMapRange st fuel s virt phys size pageWritable = some t → Booted t
  | others {s t : Machine} : Booted s →
      (∀ page, IsTable st s page → t.memory page = s.memory page) →
      (∀ p, IsTable st s (address p) → p ∈ used t.pmm.bitmap) → Booted t

end

/-! ## One page for the user -/

section

variable {st : Statics} {s : Machine}

theorem pageBase_page (u : UInt32) : (pageBase u).toNat / 4096 = u.toNat / 4096 := by
  unfold pageBase
  rw [base_toNat]
  omega

theorem base_eq_of_samePage {u v : UInt32} (h : SamePage v u) : base (pageBase u) = base v := by
  apply UInt32.toNat_inj.1
  unfold base pageBase SamePage at *
  rw [base_toNat, base_toNat, base_toNat, h]
  omega

/-- A page that is there needs no new table. -/
theorem room_of_translate {v : UInt32} (h : translate st s v ≠ none) : ¬RunsOut st s v := by
  intro hout
  rw [translate_eq, hout.1, Bool.false_and, if_neg Bool.false_ne_true] at h
  exact h rfl

/-- Addresses of one page are translated together. -/
theorem translate_samePage {v w : UInt32} (h : SamePage v w) :
    translate st s v = translate st s w := by
  obtain ⟨hpd, hpt⟩ := (samePage_iff v w).1 h
  rw [translate_eq, translate_eq, hpd, hpt]

theorem userMap_translate (hok : TablesOk st s) {u : UInt32} (hu : translate st s u ≠ none)
    (v : UInt32) :
    translate st (pagingMap st s (pageBase u) (pageBase u) (pageWritable ||| pageUser)) v =
      if SamePage v u then some ⟨base v, true, true⟩ else translate st s v := by
  have hroom : ¬RunsOut st s (pageBase u) := room_of_translate (by
    rwa [translate_samePage (pageBase_page u)])
  rw [pagingMap_translate _ _ _ hok, pageBase_page]
  by_cases h : SamePage v u
  · rw [if_pos ⟨h, hroom⟩, if_pos h, ← base_eq_of_samePage h]
    rfl
  · rw [if_neg (fun hp => h hp.1), if_neg h]

/-- A page that is there stays there. -/
theorem userMap_some (hok : TablesOk st s) {u v : UInt32} (hu : translate st s u ≠ none)
    (hv : translate st s v ≠ none) :
    translate st (pagingMap st s (pageBase u) (pageBase u) (pageWritable ||| pageUser)) v ≠ none := by
  rw [userMap_translate hok hu]
  split
  · exact Option.some_ne_none _
  · exact hv

theorem usermodeInit_ok (img : UserImage) (hok : TablesOk st s) :
    TablesOk st (usermodeInit st img s) := by
  unfold usermodeInit
  dsimp only
  split
  · exact pagingMap_ok _ _ _ (pagingMap_ok _ _ _ (pagingMap_ok _ _ _ hok))
  · exact pagingMap_ok _ _ _ (pagingMap_ok _ _ _ hok)

theorem usermodeInit_translate {img : UserImage} (hok : TablesOk st s)
    (htest : translate st s img.testEntry ≠ none) (hfault : translate st s img.faultEntry ≠ none)
    (hstack : translate st s img.stack ≠ none) (v : UInt32) :
    translate st (usermodeInit st img s) v =
      if UserPage img v then some ⟨base v, true, true⟩ else translate st s v := by
  have hcode : TablesOk st (pagingMap st s (pageBase img.testEntry) (pageBase img.testEntry)
      (pageWritable ||| pageUser)) := pagingMap_ok _ _ _ hok
  unfold usermodeInit
  dsimp only
  by_cases hsame : pageBase img.faultEntry = pageBase img.testEntry
  · have hpage : SamePage img.faultEntry img.testEntry := by
      rw [SamePage, ← pageBase_page, hsame, pageBase_page]
    rw [if_neg (not_not.2 hsame), userMap_translate hcode (userMap_some hok htest hstack),
      userMap_translate hok htest]
    by_cases huser : UserPage img v
    · have hcases : SamePage v img.stack ∨ SamePage v img.testEntry := by
        rcases huser with h | h | h
        · exact .inr h
        · exact .inr (h.trans hpage)
        · exact .inl h
      rw [if_pos huser, ← ite_or, if_pos hcases]
    · rw [if_neg huser, if_neg (fun h => huser (.inr (.inr h))), if_neg (fun h => huser (.inl h))]
  · rw [if_pos hsame, userMap_translate (pagingMap_ok _ _ _ hcode) (userMap_some hcode
      (userMap_some hok htest hfault) (userMap_some hok htest hstack)),
      userMap_translate hcode (userMap_some hok htest hfault), userMap_translate hok htest]
    by_cases huser : UserPage img v
    · have hcases : (SamePage v img.stack ∨ SamePage v img.faultEntry) ∨
          SamePage v img.testEntry := by
        rcases huser with h | h | h
        · exact .inr h
        · exact .inl (.inr h)
        · exact .inl (.inl h)
      rw [if_pos huser, ← ite_or, ← ite_or, if_pos hcases]
    · rw [if_neg huser, if_neg (fun h => huser (.inr (.inr h))),
        if_neg (fun h => huser (.inr (.inl h))), if_neg (fun h => huser (.inl h))]

/-! ## Every state -/

/-- The pages of the user, for the user, and nothing else. -/
def Isolated (st : Statics) (img : UserImage) (s : Machine) : Prop :=
  ∀ v, if UserPage img v then translate st s v = some ⟨base v, true, true⟩
    else userAccess st s v = false

variable {img : UserImage}

theorem pagingMap_isolated (hok : TablesOk st s) (h : Isolated st img s) {virt : UInt32}
    (hvirt : ¬UserPage img virt) (phys : UInt32) :
    Isolated st img (pagingMap st s virt phys pageWritable) := by
  intro v
  have hv := h v
  by_cases huser : UserPage img v
  · have hother : ¬SamePage v virt := fun hsame => hvirt (by
      unfold UserPage SamePage at huser ⊢
      rwa [← show v.toNat / 4096 = virt.toNat / 4096 from hsame])
    rw [if_pos huser] at hv ⊢
    rw [pagingMap_translate _ _ _ hok, if_neg (fun hp => hother hp.1)]
    exact hv
  · rw [if_neg huser] at hv ⊢
    unfold userAccess at hv ⊢
    rw [pagingMap_translate _ _ _ hok]
    by_cases hp : v.toNat / 4096 = virt.toNat / 4096 ∧ ¬RunsOut st s virt
    · rw [if_pos hp]
      rfl
    · rw [if_neg hp]
      exact hv

theorem mapRangeFrom_isolated {t : Machine} {virt phys size : UInt32}
    (hvirt : ∀ offset < size, ¬UserPage img (virt + offset)) (fuel : ℕ) (offset : UInt32)
    (hok : TablesOk st s) (h : Isolated st img s)
    (heq : mapRangeFrom st virt phys size pageWritable fuel offset s = some t) :
    Isolated st img t := by
  induction fuel generalizing offset s with
  | zero => simp [mapRangeFrom] at heq
  | succ fuel ih =>
    unfold mapRangeFrom at heq
    split at heq
    next hmore =>
      exact ih _ (pagingMap_ok _ _ _ hok) (pagingMap_isolated hok h (hvirt offset hmore) _) heq
    next =>
      rw [← Option.some.inj heq]
      exact h

theorem pagingInit_isolated (howned : Owned st s.pmm) :
    Isolated st img (usermodeInit st img (pagingInit st s)) := by
  have hlow {u : UInt32} (hu : u.toNat < 4 * 1024 * 1024) :
      translate st (pagingInit st s) u ≠ none := by
    rw [pagingInit_translate, if_pos hu]
    exact Option.some_ne_none _
  intro v
  have htranslate := usermodeInit_translate (pagingInit_ok st s howned) (hlow img.testEntry_low)
    (hlow img.faultEntry_low) (hlow img.stack_low) v
  by_cases huser : UserPage img v
  · rw [if_pos huser] at htranslate ⊢
    exact htranslate
  · rw [if_neg huser] at htranslate ⊢
    unfold userAccess
    rw [htranslate, pagingInit_translate]
    by_cases hv : v.toNat < 4 * 1024 * 1024
    · rw [if_pos hv]
    · rw [if_neg hv]

theorem others_translate {t : Machine}
    (hmemory : ∀ page, IsTable st s page → t.memory page = s.memory page) (v : UInt32) :
    translate st t v = translate st s v := by
  have hpde (i : ℕ) : pde st t i = pde st s i := congrFun (hmemory _ (.inl rfl)) i
  rw [translate_eq, translate_eq, hpde]
  cases hpresent : present (pde st s (pdIndex v)) with
  | false => rfl
  | true =>
    rw [pte_congr (hpde _) (hmemory _ (.inr ⟨_, pdIndex_lt v, hpresent, rfl⟩))]

theorem Booted.isolated (h : Booted st img s) : TablesOk st s ∧ Isolated st img s := by
  induction h with
  | boot howned => exact ⟨usermodeInit_ok _ (pagingInit_ok _ _ howned), pagingInit_isolated howned⟩
  | mapRange fuel virt phys size _ hvirt heq ih =>
    exact ⟨mapRangeFrom_ok virt phys pageWritable fuel 0 ih.1 heq,
      mapRangeFrom_isolated hvirt fuel 0 ih.1 ih.2 heq⟩
  | others _ hmemory hkept ih =>
    refine ⟨ih.1.others hmemory hkept, fun v => ?_⟩
    have hv := ih.2 v
    unfold userAccess at hv ⊢
    rw [others_translate hmemory]
    exact hv

/-- Ring 3 reaches the pages of its programs and of their stack, where they are, and no others. -/
theorem userPages_reached (h : Booted st img s) (v : UInt32) :
    (userAccess st s v = true ↔ UserPage img v) ∧
      (UserPage img v → translate st s v = some ⟨base v, true, true⟩) := by
  have hv := h.isolated.2 v
  by_cases huser : UserPage img v
  · rw [if_pos huser] at hv
    refine ⟨iff_of_true ?_ huser, fun _ => hv⟩
    rw [userAccess, hv]
  · rw [if_neg huser] at hv
    exact ⟨iff_of_false (by rw [hv]; decide) huser, fun hp => absurd hp huser⟩

/-- Programs in the page behind 64 KB and a stack in a page of its own. -/
def lowImage : UserImage where
  testEntry := 0x10000
  faultEntry := 0x10007
  stack := 0x12000
  testEntry_low := by decide
  faultEntry_low := by decide
  stack_low := by decide

theorem userPages_reached_low : userAccess lowStatics
    (usermodeInit lowStatics lowImage (pagingInit lowStatics lowMachine)) 0x8000 = false := by
  have hbooted : Booted lowStatics lowImage
      (usermodeInit lowStatics lowImage (pagingInit lowStatics lowMachine)) :=
    .boot lowMachine_owned
  have h := (userPages_reached hbooted 0x8000).1
  rw [← Bool.not_eq_true, h]
  decide

end

end MinervaOS.Memory
