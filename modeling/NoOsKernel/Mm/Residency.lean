import NoOsKernel.Mm.AddressSpace
import NoOsKernel.Mm.Sched

/-!
# Frames, leaves, and resident model pages

The invariant of the machine that the memory subsystems keep together: frames are owned
exclusively, a leaf in the model window is read-only and backed by the frame its task has on record,
and a recorded frame without a leaf is held by the record. `root` gives the top-level table of each
task and `held` the recorded frames.

Each lemma is one thing a subsystem does: mapping a fresh page below the window, bringing a model
page in or dropping it, swapping a page out, making and freeing an address space, and writing to
frames that are no tables.
-/

set_option autoImplicit false
set_option relaxedAutoImplicit false

namespace NoOsKernel.Mm

open Lib Lib.Radix

/-- The number of pages the model window can have. -/
def modelPages : ℕ := userModelMax / 4096

theorem isUserVa_modelVa {pg : ℕ} (hpg : pg < modelPages) : IsUserVa (modelVa pg) := by
  rw [modelPages, userModelMax] at hpg
  rw [IsUserVa, modelVa, userModelBase]
  omega

theorem pathOf_ne_modelVa {va pg : ℕ} (hva : IsUserVa va) (hlow : va < userModelBase)
    (hpg : pg < modelPages) : pathOf (modelVa pg) ≠ pathOf va := by
  intro hpath
  have hpage := pathOf_inj (isUserVa_modelVa hpg) hva hpath
  rw [userModelBase] at hlow
  rw [modelVa, userModelBase] at hpage
  omega

theorem modelVa_path_inj {pg pg' : ℕ} (hpg : pg < modelPages) (hpg' : pg' < modelPages)
    (hpath : pathOf (modelVa pg) = pathOf (modelVa pg')) : pg = pg' := by
  have hpage := pathOf_inj (isUserVa_modelVa hpg) (isUserVa_modelVa hpg') hpath
  rw [modelVa, modelVa, userModelBase] at hpage
  omega

/-- The claims outside the page tables: the script's first frame during a spawn, and recorded model
frames without a leaf. -/
def looseOf (mem : ℕ → Page) (root : ℕ → Option ℕ) (held : ℕ → ℕ → Option ℕ)
    (scratch : Option ℕ) : Holder → Option ℕ
  | .hand => none
  | .scratch => scratch
  | .model t pg =>
    if (link pteFrame mem (root t) (pathOf (modelVa pg))).isNone then held t pg else none

/-- The invariant of the machine. -/
structure MemInv (m : Machine) (root : ℕ → Option ℕ) (held : ℕ → ℕ → Option ℕ)
    (scratch : Option ℕ) : Prop where
  owns : Owns m root (looseOf m.mem root held scratch)
  backed : ∀ t pg w, pg < modelPages →
    link pteFrame m.mem (root t) (pathOf (modelVa pg)) = some w →
      writable w = false ∧ ∃ f, held t pg = some f ∧ pteFrame w = some f
  bounded : ∀ t pg f, held t pg = some f → pg < modelPages

variable {m m' : Machine} {root : ℕ → Option ℕ} {held held' : ℕ → ℕ → Option ℕ}
  {scratch scratch' : Option ℕ}

namespace MemInv

/-- A step that changes no leaf of the window and no record. -/
theorem of_sameModel (h : MemInv m root held scratch)
    (hown : Owns m' root (looseOf m.mem root held scratch'))
    (hlinks : ∀ t pg, pg < modelPages → link pteFrame m'.mem (root t) (pathOf (modelVa pg)) =
      link pteFrame m.mem (root t) (pathOf (modelVa pg))) : MemInv m' root held scratch' := by
  refine ⟨hown.drop fun e f he ↦ ?_, fun t pg w hpg hlink ↦ ?_, h.bounded⟩
  · cases e with
    | hand => exact he
    | scratch => exact he
    | model t pg =>
      simp only [looseOf] at he ⊢
      split_ifs at he with hnone
      rwa [← hlinks t pg (h.bounded t pg f he), if_pos hnone]
  · rw [hlinks t pg hpg] at hlink
    exact h.backed t pg w hpg hlink

theorem of_sameLeaves (h : MemInv m root held scratch)
    (hown : Owns m' root (looseOf m.mem root held scratch')) (hsame : SameLeaves root m m') :
    MemInv m' root held scratch' :=
  h.of_sameModel hown fun t _ hpg ↦ hsame t _ (isLeaf_pathOf (isUserVa_modelVa hpg))

/-! ### Memory and marks -/

/-- Memory may change outside the tables. -/
theorem write (h : MemInv m root held scratch) {mem' : ℕ → Page}
    (hmem : ∀ g, IsTable 4 2 pteFrame m.mem root g → mem' g = m.mem g) :
    MemInv { m with mem := mem' } root held scratch ∧ SameLeaves root m { m with mem := mem' } := by
  obtain ⟨hown, hsame⟩ := h.owns.write hmem
  exact ⟨h.of_sameLeaves hown hsame, hsame⟩

/-- `kmalloc` takes frames nobody owns. -/
theorem kmalloc (h : MemInv m root held scratch) (need : ℕ) :
    MemInv { m with pmm := (Mm.kmalloc m.pmm need).2 } root held scratch := by
  obtain ⟨hok, -, hmark⟩ := kmalloc_spec h.owns.pmm need
  exact h.of_sameLeaves (h.owns.mono_pmm hok hmark) SameLeaves.refl

/-- The script's first frame is given up. -/
theorem dropScratch (h : MemInv m root held scratch) : MemInv m root held none := by
  refine h.of_sameLeaves (h.owns.drop fun e f he ↦ ?_) SameLeaves.refl
  cases e with
  | scratch => exact absurd he nofun
  | hand => exact he
  | model t pg => exact he

/-! ### Fresh pages -/

/-- Taking a frame, filling it, and mapping it for one holder: no frame, a failed walk, or a new
leaf. -/
theorem mapFresh_cases {loose : Holder → Option ℕ} (h : Owns m root loose) {t c va : ℕ} {e : Holder}
    (he : loose e = none) (ht : root t = some c) (hva : IsUserVa va) (fill : Option Page)
    (flags : BitVec 8) :
    mapFresh m (c * frameSize) va fill flags = .error m ∨
      ∃ f m', mapFresh m (c * frameSize) va fill flags = .ok (f * frameSize, m') ∧ f < 2 ^ 18 ∧
        ((Owns m' root (Function.update loose e (some f)) ∧ SameLeaves root m m') ∨
          (Owns m' root loose ∧ ∀ t' p, IsLeaf p → link pteFrame m'.mem (root t') p =
            if t' = t ∧ p = pathOf va then some (leafEntry (f * frameSize) flags)
            else link pteFrame m.mem (root t') p)) := by
  rcases h.mapFresh he (c * frameSize) va fill flags with
    hfail | ⟨f, m₁, heq, hfetched, hown₁, hsame₁⟩
  · exact Or.inl hfail
  · refine Or.inr ⟨f, _, heq, hfetched.small, ?_⟩
    rcases vmmMap_spec hown₁ ht hva (Function.update_self ..) flags with
      ⟨hown₂, hsame₂⟩ | ⟨hown₂, hlinks⟩
    · exact Or.inl ⟨hown₂, hsame₁.trans hsame₂⟩
    · right
      rw [Function.update_idem, ← he, Function.update_eq_self] at hown₂
      refine ⟨hown₂, fun t' p hp ↦ ?_⟩
      rw [hlinks t' p hp, hsame₁ t' p hp]

/-- A fresh page below the window. -/
theorem mapFresh (h : MemInv m root held scratch) {t c va : ℕ} (ht : root t = some c)
    (hva : IsUserVa va) (hlow : va < userModelBase) (fill : Option Page) (flags : BitVec 8) :
    Mm.mapFresh m (c * frameSize) va fill flags = .error m ∨
      ∃ f m', Mm.mapFresh m (c * frameSize) va fill flags = .ok (f * frameSize, m') ∧
        MemInv m' root held scratch ∧
        ∀ t' p, IsLeaf p → p ≠ pathOf va →
          link pteFrame m'.mem (root t') p = link pteFrame m.mem (root t') p := by
  rcases mapFresh_cases h.owns (e := .hand) rfl ht hva fill flags with
    hfail | ⟨f, m', heq, -, ⟨hown, hsame⟩ | ⟨hown, hlinks⟩⟩
  · exact Or.inl hfail
  · refine Or.inr ⟨f, m', heq, h.of_sameLeaves (hown.drop fun e k he ↦ ?_) hsame,
      fun t' p hp _ ↦ hsame t' p hp⟩
    cases e with
    | hand => exact absurd he nofun
    | scratch => exact he
    | model t' pg => exact he
  · refine Or.inr ⟨f, m', heq, h.of_sameModel hown fun t' pg hpg ↦ ?_, fun t' p hp hne ↦ ?_⟩
    · rw [hlinks t' _ (isLeaf_pathOf (isUserVa_modelVa hpg)),
        if_neg fun hmine ↦ pathOf_ne_modelVa hva hlow hpg hmine.2]
    · rw [hlinks t' p hp, if_neg fun hmine ↦ hne hmine.2]

/-- The first page of the script: its frame has a leaf, or is kept as the scratch frame. -/
theorem mapScratch (h : MemInv m root held none) {t c va : ℕ} (ht : root t = some c)
    (hva : IsUserVa va) (hlow : va < userModelBase) (fill : Option Page) (flags : BitVec 8) :
    Mm.mapFresh m (c * frameSize) va fill flags = .error m ∨
      ∃ f m', Mm.mapFresh m (c * frameSize) va fill flags = .ok (f * frameSize, m') ∧
        (MemInv m' root held (some f) ∨
          (MemInv m' root held none ∧
            ∃ w, link pteFrame m'.mem (root t) (pathOf va) = some w ∧ pteFrame w = some f)) := by
  rcases mapFresh_cases h.owns (e := .scratch) rfl ht hva fill flags with
    hfail | ⟨f, m', heq, hlt, ⟨hown, hsame⟩ | ⟨hown, hlinks⟩⟩
  · exact Or.inl hfail
  · refine Or.inr ⟨f, m', heq, Or.inl (h.of_sameLeaves (hown.drop fun e k he ↦ ?_) hsame)⟩
    cases e with
    | hand => exact absurd he nofun
    | scratch => exact he
    | model t' pg => exact he
  · refine Or.inr ⟨f, m', heq, Or.inr ⟨h.of_sameModel hown fun t' pg hpg ↦ ?_, ?_⟩⟩
    · rw [hlinks t' _ (isLeaf_pathOf (isUserVa_modelVa hpg)),
        if_neg fun hmine ↦ pathOf_ne_modelVa hva hlow hpg hmine.2]
    · exact ⟨_, by rw [hlinks t _ (isLeaf_pathOf hva), if_pos ⟨rfl, rfl⟩],
        pteFrame_leafEntry hlt flags⟩

/-! ### Model pages -/

/-- The records with one changed. -/
def setHeld (held : ℕ → ℕ → Option ℕ) (t pg : ℕ) (v : Option ℕ) : ℕ → ℕ → Option ℕ :=
  Function.update held t (Function.update (held t) pg v)

theorem setHeld_self (held : ℕ → ℕ → Option ℕ) (t pg : ℕ) (v : Option ℕ) :
    setHeld held t pg v t pg = v := by
  rw [setHeld, Function.update_self, Function.update_self]

theorem setHeld_of_ne (held : ℕ → ℕ → Option ℕ) {t pg t' pg' : ℕ} (v : Option ℕ)
    (hne : ¬ (t' = t ∧ pg' = pg)) : setHeld held t pg v t' pg' = held t' pg' := by
  by_cases ht : t' = t
  · subst ht
    rw [setHeld, Function.update_self, Function.update_of_ne fun hpg ↦ hne ⟨rfl, hpg⟩]
  · rw [setHeld, Function.update_of_ne ht]

/-- A step that changes one leaf of the window and its record. -/
theorem of_pageChange (h : MemInv m root held scratch) {t pg : ℕ} (hpg : pg < modelPages)
    {loose : Holder → Option ℕ} (hown : Owns m' root loose) {v : Option ℕ}
    (hlinks : ∀ t' pg', pg' < modelPages → ¬ (t' = t ∧ pg' = pg) →
      link pteFrame m'.mem (root t') (pathOf (modelVa pg')) =
        link pteFrame m.mem (root t') (pathOf (modelVa pg')))
    (hloose : ∀ e, e ≠ .model t pg → loose e = looseOf m.mem root held scratch e)
    (hmine : (link pteFrame m'.mem (root t) (pathOf (modelVa pg)) = none ∧
        loose (.model t pg) = v) ∨
      ∃ w f, link pteFrame m'.mem (root t) (pathOf (modelVa pg)) = some w ∧ writable w = false ∧
        v = some f ∧ pteFrame w = some f) :
    MemInv m' root (setHeld held t pg v) scratch := by
  refine ⟨hown.drop fun e f he ↦ ?_, fun t' pg' w hpg' hlink ↦ ?_, fun t' pg' f hheld ↦ ?_⟩
  · by_cases heq : e = .model t pg
    · subst heq
      simp only [looseOf, setHeld_self] at he
      split_ifs at he with hnone
      rcases hmine with ⟨-, hv⟩ | ⟨w, f', hlink, -⟩
      · rw [hv, he]
      · rw [hlink] at hnone
        exact absurd hnone nofun
    · rw [hloose e heq]
      cases e with
      | hand => exact he
      | scratch => exact he
      | model t' pg' =>
        have hne : ¬ (t' = t ∧ pg' = pg) := fun hsame ↦ heq (by rw [hsame.1, hsame.2])
        simp only [looseOf, setHeld_of_ne _ _ hne] at he ⊢
        split_ifs at he with hnone
        rwa [← hlinks t' pg' (h.bounded t' pg' f he) hne, if_pos hnone]
  · by_cases hsame : t' = t ∧ pg' = pg
    · obtain ⟨rfl, rfl⟩ := hsame
      rw [setHeld_self]
      rcases hmine with ⟨hnone, -⟩ | ⟨w', f, hlink', hro, hv, hframe⟩
      · rw [hnone] at hlink
        exact absurd hlink nofun
      · rw [hlink', Option.some.injEq] at hlink
        exact ⟨hlink ▸ hro, f, hv, hlink ▸ hframe⟩
    · rw [setHeld_of_ne _ _ hsame]
      rw [hlinks t' pg' hpg' hsame] at hlink
      exact h.backed t' pg' w hpg' hlink
  · by_cases hsame : t' = t ∧ pg' = pg
    · rw [hsame.2]
      exact hpg
    · rw [setHeld_of_ne _ _ hsame] at hheld
      exact h.bounded t' pg' f hheld

/-- A page that is not recorded has no leaf. -/
theorem link_of_not_held (h : MemInv m root held scratch) {t pg : ℕ} (hpg : pg < modelPages)
    (hnone : held t pg = none) : link pteFrame m.mem (root t) (pathOf (modelVa pg)) = none := by
  rcases hlink : link pteFrame m.mem (root t) (pathOf (modelVa pg)) with - | w
  · rfl
  · obtain ⟨-, f, hf, -⟩ := h.backed t pg w hpg hlink
    rw [hnone] at hf
    exact absurd hf nofun

theorem modelVa_ne {t pg t' pg' : ℕ} (hpg : pg < modelPages) (hpg' : pg' < modelPages)
    (hne : ¬ (t' = t ∧ pg' = pg)) : ¬ (t' = t ∧ pathOf (modelVa pg') = pathOf (modelVa pg)) :=
  fun hsame ↦ hne ⟨hsame.1, modelVa_path_inj hpg' hpg hsame.2⟩

/-- A model page comes in: mapped read-only, or recorded without a leaf. -/
theorem faultIn (h : MemInv m root held scratch) {t c pg : ℕ} (ht : root t = some c)
    (hpg : pg < modelPages) (hnone : held t pg = none) (fill : Option Page) :
    Mm.mapFresh m (c * frameSize) (modelVa pg) fill vmmUser = .error m ∨
      ∃ f m', Mm.mapFresh m (c * frameSize) (modelVa pg) fill vmmUser = .ok (f * frameSize, m') ∧
        MemInv m' root (setHeld held t pg (some f)) scratch := by
  have hlink := h.link_of_not_held hpg hnone
  have hfree : looseOf m.mem root held scratch (.model t pg) = none := by
    simp only [looseOf, hnone, ite_self]
  rcases mapFresh_cases h.owns hfree ht (isUserVa_modelVa hpg) fill vmmUser with
    hfail | ⟨f, m', heq, hlt, ⟨hown, hsame⟩ | ⟨hown, hlinks⟩⟩
  · exact Or.inl hfail
  · refine Or.inr ⟨f, m', heq, h.of_pageChange hpg hown
      (fun t' pg' hpg' _ ↦ hsame t' _ (isLeaf_pathOf (isUserVa_modelVa hpg')))
      (fun e he ↦ Function.update_of_ne he _ _) (Or.inl ⟨?_, Function.update_self ..⟩)⟩
    rw [hsame t _ (isLeaf_pathOf (isUserVa_modelVa hpg)), hlink]
  · refine Or.inr ⟨f, m', heq, h.of_pageChange hpg hown (fun t' pg' hpg' hne ↦ ?_)
      (fun _ _ ↦ rfl) (Or.inr ⟨_, f, ?_, writable_leafEntry_user hlt, rfl,
        pteFrame_leafEntry hlt vmmUser⟩)⟩
    · rw [hlinks t' _ (isLeaf_pathOf (isUserVa_modelVa hpg')), if_neg (modelVa_ne hpg hpg' hne)]
    · rw [hlinks t _ (isLeaf_pathOf (isUserVa_modelVa hpg)), if_pos ⟨rfl, rfl⟩]

/-- A recorded model page is dropped, with or without a leaf. -/
theorem dropPage (h : MemInv m root held scratch) {t c pg f : ℕ} (ht : root t = some c)
    (hheld : held t pg = some f) :
    MemInv { vmmUnmap m (c * frameSize) (modelVa pg) with
        pmm := pmmFreeFrame m.pmm (f * frameSize) } root (setHeld held t pg none) scratch := by
  have hpg := h.bounded t pg f hheld
  have hva := isUserVa_modelVa hpg
  have hlinks := vmmUnmap_leaves h.owns ht hva
  have hother : ∀ t' pg', pg' < modelPages → ¬ (t' = t ∧ pg' = pg) →
      link pteFrame (vmmUnmap m (c * frameSize) (modelVa pg)).mem (root t')
          (pathOf (modelVa pg')) =
        link pteFrame m.mem (root t') (pathOf (modelVa pg')) := by
    intro t' pg' hpg' hne
    rw [hlinks t' _ (isLeaf_pathOf (isUserVa_modelVa hpg')), if_neg (modelVa_ne hpg hpg' hne)]
  have hmine : link pteFrame (vmmUnmap m (c * frameSize) (modelVa pg)).mem (root t)
      (pathOf (modelVa pg)) = none := by
    rw [hlinks t _ (isLeaf_pathOf hva), if_pos ⟨rfl, rfl⟩]
  rcases hlink : link pteFrame m.mem (root t) (pathOf (modelVa pg)) with - | w
  · -- the record holds the frame
    have hloose : looseOf m.mem root held scratch (.model t pg) = some f := by
      simp only [looseOf, hlink, Option.isNone_none, if_true, hheld]
    have hown := (vmmUnmap_owns h.owns ht hva).freeLoose hloose
    rw [vmmUnmap_pmm] at hown
    exact h.of_pageChange hpg hown hother (fun e he ↦ Function.update_of_ne he _ _)
      (Or.inl ⟨hmine, Function.update_self ..⟩)
  · -- the leaf owns it
    obtain ⟨-, f', hf', hframe⟩ := h.backed t pg w hpg hlink
    rw [hheld, Option.some.injEq] at hf'
    have hown := vmmUnmap_free h.owns ht hva hlink (hf' ▸ hframe)
    refine h.of_pageChange hpg hown hother (fun _ _ ↦ rfl) (Or.inl ⟨hmine, ?_⟩)
    simp only [looseOf, hlink, Option.isNone_some, Bool.false_eq_true, if_false]

/-- A page below the window is unmapped and its frame freed. -/
theorem unmapFree (h : MemInv m root held scratch) {t c va f : ℕ} {w : Word} (ht : root t = some c)
    (hva : IsUserVa va) (hlow : va < userModelBase)
    (hlink : link pteFrame m.mem (root t) (pathOf va) = some w) (hframe : pteFrame w = some f) :
    MemInv { vmmUnmap m (c * frameSize) va with pmm := pmmFreeFrame m.pmm (f * frameSize) }
      root held scratch := by
  refine h.of_sameModel (vmmUnmap_free h.owns ht hva hlink hframe) fun t' pg hpg ↦ ?_
  rw [vmmUnmap_leaves h.owns ht hva t' _ (isLeaf_pathOf (isUserVa_modelVa hpg)),
    if_neg fun hsame ↦ pathOf_ne_modelVa hva hlow hpg hsame.2]

/-! ### Address spaces -/

/-- The records without those of a task. -/
def dropHeld (held : ℕ → ℕ → Option ℕ) (t : ℕ) : ℕ → ℕ → Option ℕ :=
  Function.update held t fun _ ↦ none

/-- A task's address space and records go, whatever happens to its frames. -/
theorem of_fell (h : MemInv m root held scratch) {t : ℕ} (hmem : m'.mem = m.mem)
    (hown : Owns m' (Function.update root t none) (looseOf m.mem root held scratch)) :
    MemInv m' (Function.update root t none) (dropHeld held t) scratch := by
  refine ⟨hown.drop fun e f he ↦ ?_, fun t' pg w hpg hlink ↦ ?_, fun t' pg f hheld ↦ ?_⟩
  · cases e with
    | hand => exact he
    | scratch => exact he
    | model t' pg =>
      by_cases heq : t' = t
      · simp only [looseOf, heq, dropHeld, Function.update_self, ite_self] at he
        cases he
      · simp only [looseOf, dropHeld, Function.update_of_ne heq, hmem] at he ⊢
        exact he
  · by_cases heq : t' = t
    · rw [heq, Function.update_self, pathOf, link_eq_none.mpr (node_none _)] at hlink
      cases hlink
    · rw [Function.update_of_ne heq, hmem] at hlink
      rw [dropHeld, Function.update_of_ne heq]
      exact h.backed t' pg w hpg hlink
  · by_cases heq : t' = t
    · rw [heq, dropHeld, Function.update_self] at hheld
      cases hheld
    · rw [dropHeld, Function.update_of_ne heq] at hheld
      exact h.bounded t' pg f hheld

/-- `vmm_free_address_space` for the end of a task. -/
theorem freeSpace (h : MemInv m root held scratch) {t c : ℕ} (ht : root t = some c) :
    MemInv (vmmFreeAddressSpace m (c * frameSize)) (Function.update root t none) (dropHeld held t)
      scratch :=
  h.of_fell rfl (vmmFreeAddressSpace_spec h.owns ht)

/-- A task slot is cleared. -/
theorem forget (h : MemInv m root held scratch) (t : ℕ) :
    MemInv m (Function.update root t none) (dropHeld held t) scratch :=
  h.of_fell rfl ⟨h.owns.pmm, exclusive_fell h.owns.excl fun _ hk ↦ Or.inl hk⟩

/-- A task gets a new address space, without records. -/
theorem newSpace (h : MemInv m root held scratch) (t bootPml4 : ℕ) :
    vmmNewAddressSpace m bootPml4 = (0, m) ∨
      ∃ c m', vmmNewAddressSpace m bootPml4 = (c * frameSize, m') ∧ c ≠ 0 ∧
        MemInv m' (Function.update root t (some c)) (dropHeld held t) scratch := by
  rcases vmmNewAddressSpace_spec h.owns t bootPml4 with hfail | ⟨c, m', heq, hne, hown, hlinks⟩
  · exact Or.inl hfail
  · refine Or.inr ⟨c, m', heq, hne, hown.drop fun e f he ↦ ?_, fun t' pg w hpg hlink ↦ ?_,
      fun t' pg f hheld ↦ ?_⟩
    · cases e with
      | hand => exact he
      | scratch => exact he
      | model t' pg =>
        by_cases hsame : t' = t
        · simp only [looseOf, hsame, dropHeld, Function.update_self, ite_self] at he
          exact absurd he nofun
        · simp only [looseOf, dropHeld, Function.update_of_ne hsame] at he ⊢
          split_ifs at he with hnone
          have hkeep := hlinks t' _ (isLeaf_pathOf (isUserVa_modelVa (h.bounded t' pg f he)))
          rw [Function.update_of_ne hsame, if_neg hsame] at hkeep
          rwa [← hkeep, if_pos hnone]
    · rw [hlinks t' _ (isLeaf_pathOf (isUserVa_modelVa hpg))] at hlink
      by_cases hsame : t' = t
      · rw [if_pos hsame] at hlink
        exact absurd hlink nofun
      · rw [if_neg hsame] at hlink
        rw [dropHeld, Function.update_of_ne hsame]
        exact h.backed t' pg w hpg hlink
    · by_cases hsame : t' = t
      · rw [hsame, dropHeld, Function.update_self] at hheld
        exact absurd hheld nofun
      · rw [dropHeld, Function.update_of_ne hsame] at hheld
        exact h.bounded t' pg f hheld

/-! ### Loading a program -/

/-- Fresh pages below the window, one after the other. -/
theorem mapPages (h : MemInv m root held scratch) {t c : ℕ} (ht : root t = some c)
    (fills : List (Option Page)) (va : ℕ) (hlo : userImageBase ≤ va)
    (hhi : va + fills.length * 4096 ≤ userModelBase) :
    ∃ m', (Mm.mapPages m (c * frameSize) va fills = .error m' ∨
        ∃ frames, Mm.mapPages m (c * frameSize) va fills = .ok (frames, m')) ∧
      MemInv m' root held scratch ∧
      ∀ t' p, IsLeaf p → (∀ j < fills.length, p ≠ pathOf (va + j * 4096)) →
        link pteFrame m'.mem (root t') p = link pteFrame m.mem (root t') p := by
  induction fills generalizing m va with
  | nil => exact ⟨m, Or.inr ⟨[], rfl⟩, h, fun _ _ _ _ ↦ rfl⟩
  | cons fill rest ih =>
    rw [List.length_cons] at hhi
    have hlow : va < userModelBase := by omega
    have hva : IsUserVa va := IsUserVa.of_region hlo (by rw [userModelBase] at hlow; omega)
    rw [Mm.mapPages]
    rcases h.mapFresh ht hva hlow fill (vmmUser ||| vmmWrite) with
      hfail | ⟨f, m₁, heq, h₁, hkeep⟩
    · exact ⟨m, Or.inl (by rw [hfail]), h, fun _ _ _ _ ↦ rfl⟩
    · obtain ⟨m', hres, h', hkeep'⟩ := ih h₁ (va + 4096) (by omega) (by omega)
      refine ⟨m', ?_, h', fun t' p hp hne ↦ ?_⟩
      · rcases hres with hfail | ⟨frames, hok⟩
        · exact Or.inl (by rw [heq]; simp only [hfail])
        · exact Or.inr ⟨f * frameSize :: frames, by rw [heq]; simp only [hok]⟩
      · rw [hkeep' t' p hp fun j hj ↦ ?_, hkeep t' p hp ?_]
        · have hfirst := hne 0 (by simp)
          rwa [Nat.zero_mul, Nat.add_zero] at hfirst
        · have hnext := hne (j + 1) (by rw [List.length_cons]; omega)
          rwa [show va + (j + 1) * 4096 = va + 4096 + j * 4096 by omega] at hnext

/-- The script pages: the frame the script is copied to is no table. -/
theorem scriptPages (h : MemInv m root held none) {t c : ℕ} (ht : root t = some c) :
    ∃ m', MemInv m' root held none ∧
      (Mm.mapPages m (c * frameSize) userScriptBase (List.replicate 8 none) = .error m' ∨
        ∃ f frames, Mm.mapPages m (c * frameSize) userScriptBase (List.replicate 8 none) =
            .ok (f * frameSize :: frames, m') ∧ ¬ IsTable 4 2 pteFrame m'.mem root f) := by
  have hva : IsUserVa userScriptBase := rfl
  have hlow : userScriptBase < userModelBase := by decide
  rw [List.replicate_succ, Mm.mapPages]
  rcases h.mapScratch ht hva hlow none (vmmUser ||| vmmWrite) with hfail | ⟨f, m₁, heq, hcases⟩
  · exact ⟨m, h, Or.inl (by rw [hfail])⟩
  rw [heq]
  rcases hcases with hheld | ⟨h₁, w, hlink, hframe⟩
  · -- the frame is kept as the scratch frame
    obtain ⟨m', hres, h', -⟩ := hheld.mapPages ht (List.replicate 7 none)
      (userScriptBase + 4096) (by decide) (by decide)
    refine ⟨m', h'.dropScratch, ?_⟩
    rcases hres with hfail | ⟨frames, hok⟩
    · exact Or.inl (by simp only [hfail])
    · exact Or.inr ⟨f, frames, by simp only [hok],
        not_isTable_of_loose h'.owns.excl (e := .scratch) rfl⟩
  · -- the frame has a leaf, which the other pages leave alone
    obtain ⟨m', hres, h', hkeep⟩ := h₁.mapPages ht (List.replicate 7 none)
      (userScriptBase + 4096) (by decide) (by decide)
    refine ⟨m', h', ?_⟩
    rcases hres with hfail | ⟨frames, hok⟩
    · exact Or.inl (by simp only [hfail])
    · refine Or.inr ⟨f, frames, by simp only [hok], ?_⟩
      have hleaf := isLeaf_pathOf hva
      have hsame := hkeep t _ hleaf fun j hj hpath ↦ ?_
      · refine not_isTable_of_leaf h'.owns.excl hleaf.1 hleaf.2 (t := t) ?_
        rw [hlink] at hsame
        rw [pathOf, node_cons]
        rw [pathOf] at hsame
        rw [hsame]
        exact hframe
      · rw [List.length_replicate] at hj
        have hpage := pathOf_inj hva (IsUserVa.of_region (by rw [userImageBase, userScriptBase]; omega)
          (by rw [userScriptBase]; omega)) hpath
        rw [userScriptBase] at hpage
        omega

/-- Bytes stored within one frame. -/
theorem pokeBytes_within (m : Machine) (addr : ℕ) (bytes : List Byte)
    (hfit : addr % frameSize + bytes.length ≤ frameSize) :
    (pokeBytes m addr bytes).pmm = m.pmm ∧
      ∀ g ≠ addr / frameSize, (pokeBytes m addr bytes).mem g = m.mem g := by
  induction bytes generalizing m addr with
  | nil => exact ⟨rfl, fun _ _ ↦ rfl⟩
  | cons b rest ih =>
    rw [pokeBytes]
    have hfirst : ∀ g ≠ addr / frameSize, (pokeByte m addr b).mem g = m.mem g := by
      intro g hg
      funext j
      exact if_neg fun hsame ↦ hg hsame.1
    cases rest with
    | nil => exact ⟨rfl, hfirst⟩
    | cons b' rest =>
      simp only [List.length_cons, frameSize] at hfit
      have hdiv : (addr + 1) / frameSize = addr / frameSize := by
        simp only [frameSize]
        omega
      obtain ⟨hpmm, hmem⟩ := ih (pokeByte m addr b) (addr + 1) (by
        simp only [List.length_cons, frameSize]
        omega)
      rw [hdiv] at hmem
      exact ⟨hpmm, fun g hg ↦ (hmem g hg).trans (hfirst g hg)⟩

/-- Bytes stored in a frame that is no table. -/
theorem poke (h : MemInv m root held scratch) {f addr : ℕ} (bytes : List Byte)
    (hf : ¬ IsTable 4 2 pteFrame m.mem root f) (haddr : addr / frameSize = f)
    (hfit : addr % frameSize + bytes.length ≤ frameSize) :
    MemInv (pokeBytes m addr bytes) root held scratch := by
  obtain ⟨hpmm, hmem⟩ := pokeBytes_within m addr bytes hfit
  rw [haddr] at hmem
  have hwrite : MemInv { m with mem := (pokeBytes m addr bytes).mem } root held scratch :=
    (h.write fun g hg ↦ hmem g fun heq ↦ hf (heq ▸ hg)).1
  have heq : pokeBytes m addr bytes = { m with mem := (pokeBytes m addr bytes).mem } := by
    rw [← hpmm]
  rw [heq]
  exact hwrite

/-- Filling an address space with a program whose script fits the first scratch page. -/
theorem loadImage (h : MemInv m root held none) {t c : ℕ} (ht : root t = some c)
    {blob : List Page} (hblob : blob.length ≤ 2 ^ 18) {code : List Byte}
    (hcode : code.length ≤ 4095) :
    ∃ m', (Mm.loadImage m (c * frameSize) blob code = .error m' ∨
        Mm.loadImage m (c * frameSize) blob code = .ok m') ∧ MemInv m' root held none := by
  rw [Mm.loadImage]
  obtain ⟨m₁, hres₁, h₁, -⟩ := h.mapPages ht (blob.map some) userImageBase (le_refl _) (by
    rw [List.length_map, userImageBase, userModelBase]
    omega)
  rcases hres₁ with hfail | ⟨frames₁, hok₁⟩
  · exact ⟨m₁, Or.inl (by rw [hfail]), h₁⟩
  rw [hok₁]
  obtain ⟨m₂, h₂, hfail | ⟨f, frames₂, hok₂, hf⟩⟩ := h₁.scriptPages ht
  · exact ⟨m₂, Or.inl (by simp only [hfail]), h₂⟩
  simp only [hok₂, List.headD_cons]
  have hdiv : f * frameSize / frameSize = f := Nat.mul_div_cancel _ (by decide)
  have h₃ := h₂.poke (code.take 32768 ++ [0]) hf hdiv (by
    rw [Nat.mul_mod_left, List.length_append, List.length_take, List.length_singleton, frameSize]
    omega)
  obtain ⟨m₄, hres₄, h₄, -⟩ := h₃.mapPages ht (List.replicate 16 none) userStackBase
    (by decide) (by decide)
  rcases hres₄ with hfail | ⟨frames₄, hok₄⟩
  · exact ⟨m₄, Or.inl (by rw [hfail]), h₄⟩
  · exact ⟨m₄, Or.inr (by rw [hok₄]), h₄⟩

end MemInv

end NoOsKernel.Mm
