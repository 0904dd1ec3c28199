import NoOsKernel.Mm.KernelInv

/-!
# Filling a new address space

Which frames the pages of a new address space get, and what they hold. The frames are those the
allocator gives one after the other, less the ones the walks take for page tables; which tables a
walk misses depends on the addresses mapped before only (`pageFrames`). A page holds what it was
filled with, or what its frame has held since before (`Loaded`).
-/

set_option autoImplicit false
set_option relaxedAutoImplicit false

namespace NoOsKernel.Mm

open Lib Lib.Radix

/-! ### The frames of the pages -/

/-- The allocator after `n` frames more. -/
def pmmAfter (n : ℕ) (p : Pmm) : Pmm := (fun p ↦ (pmmAllocFrame p).2)^[n] p

/-- The frame `pmm_alloc_frame` gives. -/
def nextFrame (p : Pmm) : ℕ := (pmmAllocFrame p).1 / frameSize

/-- There is no frame left. -/
def NoFrame (p : Pmm) : Prop := pmmAllocFrame p = (0, p)

/-- The table at a path is there: it is on the way to a page table that is. -/
def known (tables : List (List ℕ)) (p : List ℕ) : Bool := tables.any fun q ↦ p.isSuffixOf q

/-- The path of the page table of an address. -/
def tablePath (va : ℕ) : List ℕ := [pdi va, pdpti va, pml4i va]

/-- The number of tables the walk to an address makes. -/
def missingTables (tables : List (List ℕ)) (va : ℕ) : ℕ :=
  (if known tables [pml4i va] then 0 else 1) +
    ((if known tables [pdpti va, pml4i va] then 0 else 1) +
      (if known tables (tablePath va) then 0 else 1))

/-- The frames that pages get when they are mapped one after the other. -/
def pageFrames (p : Pmm) (tables : List (List ℕ)) : List ℕ → List ℕ
  | [] => []
  | va :: rest =>
    nextFrame p ::
      pageFrames (pmmAfter (1 + missingTables tables va) p) (tablePath va :: tables) rest

/-- The allocator and the page tables when the pages are mapped. -/
def afterPages (p : Pmm) (tables : List (List ℕ)) : List ℕ → Pmm × List (List ℕ)
  | [] => (p, tables)
  | va :: rest => afterPages (pmmAfter (1 + missingTables tables va) p) (tablePath va :: tables) rest

theorem pmmAfter_add (n n' : ℕ) (p : Pmm) : pmmAfter n (pmmAfter n' p) = pmmAfter (n + n') p :=
  (Function.iterate_add_apply _ n n' p).symm

theorem length_pageFrames (p : Pmm) (tables : List (List ℕ)) (vas : List ℕ) :
    (pageFrames p tables vas).length = vas.length := by
  induction vas generalizing p tables with
  | nil => rfl
  | cons va rest ih => rw [pageFrames, List.length_cons, List.length_cons, ih]

theorem pageFrames_append (p : Pmm) (tables : List (List ℕ)) (vas vas' : List ℕ) :
    pageFrames p tables (vas ++ vas') = pageFrames p tables vas ++
      pageFrames (afterPages p tables vas).1 (afterPages p tables vas).2 vas' := by
  induction vas generalizing p tables with
  | nil => rfl
  | cons va rest ih => rw [List.cons_append, pageFrames, ih, pageFrames, afterPages, List.cons_append]

/-- What the allocator has given out stays marked. -/
theorem pmmAfter_spec {p : Pmm} (h : PmmOk p) (n : ℕ) :
    PmmOk (pmmAfter n p) ∧ ∀ k, Marked p k → Marked (pmmAfter n p) k := by
  induction n generalizing p with
  | zero => exact ⟨h, fun _ hk ↦ hk⟩
  | succ n ih =>
    rw [pmmAfter, Function.iterate_succ_apply]
    rcases pmmAllocFrame_spec h with hfail | ⟨f, p', heq, -, -, -, hok, -, hmark⟩
    · rw [hfail]
      exact ih h
    · rw [heq]
      obtain ⟨hok', hkeep⟩ := ih hok
      exact ⟨hok', fun k hk ↦ hkeep k ((hmark k).mpr (Or.inl hk))⟩

theorem known_cons (tables : List (List ℕ)) (q p : List ℕ) :
    known (q :: tables) p = (p.isSuffixOf q || known tables p) := by
  rw [known, List.any_cons]
  rfl

/-- The tables on the way to a table that is there are there. -/
theorem known_of_suffix {tables : List (List ℕ)} {p q : List ℕ} (hpq : p <:+ q)
    (hq : known tables q = true) : known tables p = true := by
  rw [known, List.any_eq_true] at hq ⊢
  obtain ⟨r, hr, hqr⟩ := hq
  rw [List.isSuffixOf_iff_suffix] at hqr
  exact ⟨r, hr, List.isSuffixOf_iff_suffix.mpr (hpq.trans hqr)⟩

theorem known_of_mem {tables : List (List ℕ)} {p : List ℕ} (hp : p ∈ tables) :
    known tables p = true :=
  List.any_eq_true.mpr ⟨p, hp, List.isSuffixOf_iff_suffix.mpr List.suffix_rfl⟩

theorem mem_afterPages (p : Pmm) (tables : List (List ℕ)) (vas : List ℕ) (q : List ℕ) :
    q ∈ (afterPages p tables vas).2 ↔ q ∈ tables ∨ ∃ va ∈ vas, tablePath va = q := by
  induction vas generalizing p tables with
  | nil => simp [afterPages]
  | cons va rest ih =>
    rw [afterPages, ih, List.mem_cons]
    constructor
    · rintro ((rfl | hq) | ⟨v, hv, rfl⟩)
      · exact Or.inr ⟨va, List.mem_cons_self .., rfl⟩
      · exact Or.inl hq
      · exact Or.inr ⟨v, List.mem_cons_of_mem _ hv, rfl⟩
    · rintro (hq | ⟨v, hv, rfl⟩)
      · exact Or.inl (Or.inr hq)
      · rcases List.mem_cons.mp hv with rfl | hv
        · exact Or.inl (Or.inl rfl)
        · exact Or.inr ⟨v, hv, rfl⟩

/-! ### One level of a walk -/

variable {mem₀ : ℕ → Page} {m m' m₁ : Machine} {c : ℕ}

/-- The roots with one address space. -/
def onlyRoot (c : ℕ) : ℕ → Option ℕ := Function.update (fun _ ↦ none) 0 (some c)

theorem onlyRoot_zero (c : ℕ) : onlyRoot c 0 = some c := Function.update_self ..

theorem ptNew_spec (m : Machine) (table idx : ℕ) (flags : BitVec 8) :
    (ptNew m table idx flags).1 = (pmmAllocFrame m.pmm).1 ∧
      (ptNew m table idx flags).2.pmm = (pmmAllocFrame m.pmm).2 ∧
      ∀ g, g ≠ table / frameSize → g ≠ nextFrame m.pmm →
        (ptNew m table idx flags).2.mem g = m.mem g := by
  rw [ptNew]
  split_ifs with hfail
  · exact ⟨hfail.symm, rfl, fun _ _ _ ↦ rfl⟩
  · refine ⟨rfl, rfl, fun g hg hnext ↦ ?_⟩
    funext j
    simp only [Machine.setWord, Machine.setPage, hg, false_and, if_false]
    rw [if_neg (show ¬ g = (pmmAllocFrame m.pmm).1 / frameSize from hnext)]

/-- A level of the walk leaves the machine alone, or makes a table. -/
theorem nextTable_snd (m : Machine) (table idx : ℕ) (flags : BitVec 8) :
    (nextTable m table idx flags).2 =
      if present (word m.mem table idx) then m else (ptNew m table idx flags).2 := by
  simp only [nextTable]
  split_ifs <;> rfl

theorem noFrame_of_nextTable {table idx : ℕ} {flags : BitVec 8} (hpmm : PmmOk m.pmm)
    (hfail : (nextTable m table idx flags).1 = none) : NoFrame m.pmm := by
  have hzero : (pmmAllocFrame m.pmm).1 = 0 := by
    rw [← (ptNew_spec m table idx flags).1]
    simp only [nextTable] at hfail
    split_ifs at hfail with hpresent hzero
    exact hzero
  rcases pmmAllocFrame_spec hpmm with hfull | ⟨f, p', halloc, hpos, -⟩
  · exact hfull
  · rw [halloc] at hzero
    exact absurd hzero (Nat.mul_ne_zero hpos.ne' (by decide))

/-- A walk in progress: the tables that are there, with what they were in the beginning. -/
structure Walked (m₁ m : Machine) (c : ℕ) (loose : Holder → Option ℕ) (there : List ℕ → Bool) :
    Prop where
  owns : Owns m (onlyRoot c) loose
  tables : ∀ p, TreePath 4 2 p → p ≠ [] → p.length < 4 →
    ((node pteFrame m.mem (some c) p).isSome = true ↔ there p = true)
  leaves : SameLeaves (onlyRoot c) m₁ m
  kept : ∀ g, ¬ IsTable 4 2 pteFrame m.mem (onlyRoot c) g → m.mem g = m₁.mem g

/-- The frame of a new table is the one the allocator hands out. -/
theorem nextFrame_eq_of_marks {p : Pmm} {v : ℕ} (hpmm : PmmOk p) (hfresh : ¬ Marked p v)
    (hmarks : ∀ k, Marked (pmmAllocFrame p).2 k ↔ Marked p k ∨ k = v) : nextFrame p = v := by
  rcases pmmAllocFrame_spec hpmm with hfull | ⟨v', p', halloc, -, -, hfree, -, -, hmark⟩
  · rw [hfull] at hmarks
    exact absurd ((hmarks v).mpr (Or.inr rfl)) hfresh
  · rw [halloc] at hmarks
    have hnew := (hmarks v').mp ((hmark v').mpr (Or.inr rfl))
    rw [nextFrame, halloc, Nat.mul_div_cancel _ (by decide : 0 < frameSize)]
    exact hnew.resolve_left hfree

/-- The walk goes on in the table it has made. -/
theorem Walked.link {loose : Holder → Option ℕ} {there : List ℕ → Bool}
    (h : Walked m₁ m c loose there) {f i v : ℕ} {p : List ℕ} (hp : TreePath 4 2 (i :: p))
    (hlen : p.length < 3) (hnode : node pteFrame m.mem (some c) p = some f)
    (hlinked : Linked m m' (onlyRoot c) 0 i p v)
    (hmem : ∀ g, g ≠ f → g ≠ v → m'.mem g = m.mem g) :
    node pteFrame m'.mem (some c) (i :: p) = some v ∧
      Walked m₁ m' c loose fun q ↦ there q || q == i :: p := by
  obtain ⟨w, hw, hslot⟩ := hlinked.slot
  have happart := apart_of_exclusive h.owns.excl
  have hwrite : ∀ t q, TreePath 4 2 q → node pteFrame m'.mem (onlyRoot c t) q =
      if t = 0 ∧ q = i :: p then some v else node pteFrame m.mem (onlyRoot c t) q := by
    intro t q hq
    rw [node_write hslot happart hq, hw]
  have hnone : node pteFrame m.mem (onlyRoot c 0) (i :: p) = none := by
    rcases hslot.below with hdeep | ⟨hnone, -⟩
    · omega
    · exact hnone
  have hnew : node pteFrame m'.mem (some c) (i :: p) = some v := by
    have hmine := hwrite 0 (i :: p) hp
    rwa [if_pos ⟨rfl, rfl⟩, onlyRoot_zero] at hmine
  refine ⟨hnew, ⟨hlinked.pmm, ?_⟩, fun q hq hne hshort ↦ ?_,
    h.leaves.trans (sameLeaves_of_slotWrite happart hslot hlen), fun g hg ↦ ?_⟩
  · exact exclusive_link hslot h.owns.excl hw (fun hin ↦ hlinked.fresh hin.2)
      (fun k hk ↦ ⟨hk.1, (hlinked.marks k).mpr (Or.inl hk.2)⟩)
      ⟨hlinked.pos, (hlinked.marks v).mpr (Or.inr rfl)⟩
  · have hq' := hwrite 0 q hq
    rw [onlyRoot_zero] at hq'
    rw [hq', Bool.or_eq_true, beq_iff_eq]
    by_cases hqp : q = i :: p
    · rw [if_pos ⟨rfl, hqp⟩]
      exact iff_of_true rfl (Or.inr hqp)
    · rw [if_neg fun hsame ↦ hqp hsame.2, h.tables q hq hne hshort]
      exact (or_iff_left hqp).symm
  · have hold : ¬ IsTable 4 2 pteFrame m.mem (onlyRoot c) g := by
      rintro ⟨t, q, hq, hshort, hg'⟩
      refine hg ⟨t, q, hq, hshort, ?_⟩
      rw [hwrite t q hq, if_neg]
      · exact hg'
      · rintro ⟨rfl, rfl⟩
        rw [hnone] at hg'
        cases hg'
    rw [hmem g (fun hgf ↦ ?_) (fun hgv ↦ ?_)]
    · exact h.kept g hold
    · refine hold ⟨0, p, hp.tail, hp.length_tail, ?_⟩
      rw [hgf, onlyRoot_zero]
      exact hnode
    · refine hg ⟨0, i :: p, hp, Nat.succ_lt_succ hlen, ?_⟩
      rw [onlyRoot_zero, hgv]
      exact hnew

/-- One level: there is no frame for a table that is missing, or the walk gets to the table. -/
theorem Walked.level {loose : Holder → Option ℕ} {there : List ℕ → Bool}
    (h : Walked m₁ m c loose there) {f i : ℕ} {p : List ℕ} {flags : BitVec 8}
    (hflags : flags.toNat % 2 = 1) (hp : TreePath 4 2 (i :: p)) (hlen : p.length < 3)
    (hnode : node pteFrame m.mem (some c) p = some f) :
    (nextTable m (f * frameSize) i flags = (none, m) ∧ there (i :: p) = false ∧ NoFrame m.pmm) ∨
      ∃ v m', nextTable m (f * frameSize) i flags = (some (v * frameSize), m') ∧
        node pteFrame m'.mem (some c) (i :: p) = some v ∧
        Walked m₁ m' c loose (fun q ↦ there q || q == i :: p) ∧
        m'.pmm = pmmAfter (if there (i :: p) then 0 else 1) m.pmm := by
  have hdiv : f * frameSize / frameSize = f := Nat.mul_div_cancel _ (by decide)
  have hthere := h.tables (i :: p) hp (List.cons_ne_nil i p) (Nat.succ_lt_succ hlen)
  have hmissing : node pteFrame m.mem (some c) (i :: p) = none → there (i :: p) = false := by
    intro hnone
    rw [← Bool.not_eq_true, ← hthere, hnone]
    exact Bool.false_ne_true
  have hnode₀ : node pteFrame m.mem (onlyRoot c 0) p = some f := by
    rw [onlyRoot_zero]
    exact hnode
  rcases nextTable_cases h.owns.pmm (fun _ hg ↦ h.owns.marked_of_isTable hg) hflags hp hnode₀ with
    ⟨hfail, hnone⟩ | ⟨v, heq, hold⟩ | ⟨v, m', heq, hlinked⟩
  · rw [onlyRoot_zero] at hnone
    exact Or.inl ⟨hfail, hmissing hnone, noFrame_of_nextTable h.owns.pmm (by rw [hfail])⟩
  · rw [onlyRoot_zero] at hold
    rw [hold] at hthere
    have hyes := hthere.mp rfl
    refine Or.inr ⟨v, m, heq, hold, ⟨h.owns, fun q hq hne hshort ↦ ?_, h.leaves, h.kept⟩, ?_⟩
    · rw [h.tables q hq hne hshort, Bool.or_eq_true, beq_iff_eq]
      refine (or_iff_left_of_imp ?_).symm
      rintro rfl
      exact hyes
    · rw [if_pos hyes]
      rfl
  · have hnone : node pteFrame m.mem (some c) (i :: p) = none := by
      obtain ⟨w, -, hslot⟩ := hlinked.slot
      rcases hslot.below with hdeep | ⟨hnone, -⟩
      · omega
      · rwa [onlyRoot_zero] at hnone
    -- the machine is the one `pt_new` leaves
    have hmachine : m' = (ptNew m (f * frameSize) i flags).2 := by
      have hsnd := nextTable_snd m (f * frameSize) i flags
      rw [heq] at hsnd
      rwa [if_neg fun hpresent ↦ ?_] at hsnd
      rw [node, hnode, Option.bind_some, pteFrame, if_pos (by rwa [word, hdiv] at hpresent)] at hnone
      cases hnone
    obtain ⟨-, hpmm, hmem⟩ := ptNew_spec m (f * frameSize) i flags
    rw [← hmachine] at hpmm hmem
    have hv : nextFrame m.pmm = v :=
      nextFrame_eq_of_marks h.owns.pmm hlinked.fresh fun k ↦ hpmm ▸ hlinked.marks k
    rw [hdiv, hv] at hmem
    obtain ⟨hnew, hwalked⟩ := h.link hp hlen hnode hlinked hmem
    refine Or.inr ⟨v, m', heq, hnew, hwalked, ?_⟩
    rw [hpmm, hmissing hnone]
    rfl

/-- The walk to an address: a table is missing and there is no frame for it, or the walk gets to the
page table and all tables on the way are there. -/
theorem Walked.walk {loose : Holder → Option ℕ} {tables : List (List ℕ)}
    (h : Walked m₁ m c loose (known tables)) {va : ℕ} (hva : IsUserVa va) (flags : BitVec 8) :
    ((mapWalk m (c * frameSize) va flags).1 = none ∧
        NoFrame (mapWalk m (c * frameSize) va flags).2.pmm ∧
        known tables (tablePath va) = false) ∨
      ∃ pt m', mapWalk m (c * frameSize) va flags = (some (pt * frameSize), m') ∧
        node pteFrame m'.mem (some c) (tablePath va) = some pt ∧
        Walked m₁ m' c loose (known (tablePath va :: tables)) ∧
        m'.pmm = pmmAfter (missingTables tables va) m.pmm := by
  have hodd := tableFlags_odd flags
  have hpath := treePath_pathOf hva
  have hroot : node pteFrame m.mem (some c) [] = some c := rfl
  have hmiss : ∀ p, p <:+ tablePath va → known tables p = false →
      known tables (tablePath va) = false := by
    intro p hp hno
    by_contra hyes
    rw [Bool.not_eq_false] at hyes
    rw [known_of_suffix hp hyes] at hno
    cases hno
  rw [mapWalk]
  rcases h.level hodd hpath.tail.tail.tail (by simp) hroot with
    ⟨hfail, hno, hfull⟩ | ⟨pdpt, m₂, heq₁, hnode₁, h₁, hpmm₁⟩
  · rw [hfail]
    exact Or.inl ⟨rfl, hfull, hmiss _ ⟨[pdi va, pdpti va], rfl⟩ hno⟩
  rw [heq₁]
  rcases h₁.level hodd hpath.tail.tail (by simp) hnode₁ with
    ⟨hfail, hno, hfull⟩ | ⟨pd, m₃, heq₂, hnode₂, h₂, hpmm₂⟩
  · simp only [hfail]
    rw [Bool.or_eq_false_iff] at hno
    exact Or.inl ⟨trivial, hfull, hmiss _ ⟨[pdi va], rfl⟩ hno.1⟩
  simp only [heq₂]
  rcases h₂.level hodd hpath.tail (by simp) hnode₂ with
    ⟨hfail, hno, hfull⟩ | ⟨pt, m₄, heq₃, hnode₃, h₃, hpmm₃⟩
  · simp only [hfail]
    rw [Bool.or_eq_false_iff, Bool.or_eq_false_iff] at hno
    exact Or.inl ⟨trivial, hfull, hno.1.1⟩
  · right
    refine ⟨pt, m₄, heq₃, hnode₃, ⟨h₃.owns, fun q hq hne hshort ↦ ?_, h₃.leaves, h₃.kept⟩, ?_⟩
    · rw [h₃.tables q hq hne hshort, known_cons]
      simp only [Bool.or_eq_true, beq_iff_eq, List.isSuffixOf_iff_suffix, tablePath,
        List.suffix_cons_iff, List.suffix_nil, hne, or_false]
      tauto
    · -- a level makes its table unless it was there before the walk
      rw [hpmm₃, hpmm₂, hpmm₁, pmmAfter_add, pmmAfter_add, missingTables, tablePath]
      congr 1
      simp only [List.cons_beq_cons, List.beq_nil_eq, List.isEmpty_cons, Bool.and_false,
        Bool.or_false]
      omega

/-- The frame of a leaf is no table, nor does it become one. -/
theorem Walked.not_isTable_page {loose : Holder → Option ℕ} {there : List ℕ → Bool} {m₀ : Machine}
    (h : Walked m₁ m c loose there) (hsame : SameLeaves (onlyRoot c) m₀ m₁) {i g : ℕ} {p : List ℕ}
    (hleaf : IsLeaf (i :: p)) (hnode : node pteFrame m₀.mem (onlyRoot c 0) (i :: p) = some g) :
    ¬ IsTable 4 2 pteFrame m.mem (onlyRoot c) g := by
  refine not_isTable_of_leaf (t := 0) h.owns.excl hleaf.1 hleaf.2 ?_
  rw [node_cons, (hsame.trans h.leaves) 0 (i :: p) hleaf, ← node_cons]
  exact hnode

/-- The walk is over, and the leaf is written: the frame in hand is the page's, the tables and the
other leaves stay. -/
structure LeafWritten (m₁ m m' : Machine) (c f va : ℕ) (flags : BitVec 8)
    (there : List ℕ → Bool) : Prop where
  owns : Owns m' (onlyRoot c) fun _ ↦ none
  tables : ∀ p, TreePath 4 2 p → p ≠ [] → p.length < 4 →
    ((node pteFrame m'.mem (some c) p).isSome = true ↔ there p = true)
  leaf : ∀ v, IsUserVa v → link pteFrame m'.mem (some c) (pathOf v) =
    if v / 4096 = va / 4096 then some (leafEntry (f * frameSize) flags)
    else link pteFrame m₁.mem (some c) (pathOf v)
  kept : ∀ g, ¬ IsTable 4 2 pteFrame m.mem (onlyRoot c) g → m'.mem g = m₁.mem g

theorem Walked.setLeaf {there : List ℕ → Bool} {f pt va : ℕ}
    (h : Walked m₁ m c (Function.update (fun _ ↦ none) .hand (some f)) there) (hva : IsUserVa va)
    (hpt : node pteFrame m.mem (some c) (tablePath va) = some pt) (flags : BitVec 8) :
    LeafWritten m₁ m (m.setWord (pt * frameSize) (pti va) (leafEntry (f * frameSize) flags)) c f va
      flags there := by
  have hdiv : pt * frameSize / frameSize = pt := Nat.mul_div_cancel _ (by decide)
  have hpath := treePath_pathOf hva
  have hpt₀ : node pteFrame m.mem (onlyRoot c 0) [pdi va, pdpti va, pml4i va] = some pt := by
    rw [onlyRoot_zero]
    exact hpt
  have hnone : (fun _ : Holder ↦ (none : Option ℕ)) .hand = none := rfl
  obtain ⟨hown, hlinks⟩ := h.owns.setLeaf hva hpt₀ (Function.update_self ..) flags
  rw [Function.update_idem, ← hnone, Function.update_eq_self] at hown
  refine ⟨hown, fun p hp hne hshort ↦ ?_, fun v hv ↦ ?_, fun g hg ↦ ?_⟩
  · -- the tables are above the leaf that is written
    have hw := slotWrite_setWord (w := leafEntry (f * frameSize) flags) hpath hpt₀ (Or.inl rfl)
    have hnode := node_write hw (apart_of_exclusive h.owns.excl) (t := 0) hp
    rw [onlyRoot_zero, if_neg fun hsame ↦ ?_] at hnode
    · rw [hnode]
      exact h.tables p hp hne hshort
    · rw [hsame.2] at hshort
      exact absurd hshort (by simp)
  · have hlink := hlinks 0 (pathOf v) (isLeaf_pathOf hv)
    have hleaves := h.leaves 0 (pathOf v) (isLeaf_pathOf hv)
    rw [onlyRoot_zero] at hlink hleaves
    rw [hlink, hleaves]
    by_cases hpg : v / 4096 = va / 4096
    · have hsame : pathOf v = pathOf va := by
        rw [pathOf_eq_iff]
        omega
      rw [if_pos ⟨rfl, hsame⟩, if_pos hpg]
    · rw [if_neg fun hsame ↦ hpg (pathOf_inj hv hva hsame.2), if_neg hpg]
  · rw [← h.kept g hg]
    funext j
    refine if_neg fun hsame ↦ hg ?_
    rw [hsame.1, hdiv]
    exact ⟨0, _, hpath.tail, hpath.length_tail, hpt₀⟩

/-! ### Pages -/

/-- An address space that is being filled: page numbers with the frame and the contents of the page.
Frames that are free hold what they held in the beginning. -/
structure Loaded (mem₀ : ℕ → Page) (m : Machine) (c : ℕ) (tables : List (List ℕ))
    (pages : ℕ → Option (ℕ × Page)) : Prop where
  owns : Owns m (onlyRoot c) fun _ ↦ none
  tables : ∀ p, TreePath 4 2 p → p ≠ [] → p.length < 4 →
    ((node pteFrame m.mem (some c) p).isSome = true ↔ known tables p = true)
  leaf : ∀ va, IsUserVa va → link pteFrame m.mem (some c) (pathOf va) =
    (pages (va / 4096)).map fun fp ↦ leafEntry (fp.1 * frameSize) (vmmUser ||| vmmWrite)
  held : ∀ pg f page, pages pg = some (f, page) →
    IsUserVa (pg * 4096) ∧ f < 2 ^ 18 ∧ m.mem f = page
  free : ∀ g, ¬ Marked m.pmm g → m.mem g = mem₀ g

/-- Without address spaces nothing is owned. -/
theorem owns_none (hpmm : PmmOk m.pmm) : Owns m (fun _ ↦ none) fun _ ↦ none := by
  refine ⟨hpmm, ⟨fun o f ho ↦ ?_, fun o o' f ho _ ↦ ?_⟩⟩
  all_goals
    cases o with
    | inr e => cases ho
    | inl tp =>
      have hnode := (owners_node.mp ho).2
      rw [node_none] at hnode
      cases hnode

namespace Loaded

variable {tables : List (List ℕ)} {pages : ℕ → Option (ℕ × Page)}

/-- The leaf of a page leads to its frame. -/
theorem node_of_page (h : Loaded mem₀ m c tables pages) {pg f : ℕ} {page : Page}
    (hpage : pages pg = some (f, page)) :
    node pteFrame m.mem (onlyRoot c 0) (pathOf (pg * 4096)) = some f := by
  have hleaf := h.leaf (pg * 4096) (h.held _ _ _ hpage).1
  rw [Nat.mul_div_cancel _ (by decide : 0 < 4096), hpage, Option.map_some, ← onlyRoot_zero c,
    pathOf] at hleaf
  rw [pathOf, node_cons, hleaf]
  exact pteFrame_leafEntry (h.held _ _ _ hpage).2.1 _

/-- The frame of a page is in use and no table. -/
theorem frame_of_page (h : Loaded mem₀ m c tables pages) {pg f : ℕ} {page : Page}
    (hpage : pages pg = some (f, page)) :
    InUse m.pmm f ∧ ¬ IsTable 4 2 pteFrame m.mem (onlyRoot c) f := by
  have hva := (h.held _ _ _ hpage).1
  have hnode := h.node_of_page hpage
  have hleaf := isLeaf_pathOf hva
  exact ⟨h.owns.excl.marked_of_own (.inl (0, pathOf (pg * 4096))) f
    (owners_node.mpr ⟨hleaf.1, hnode⟩), not_isTable_of_leaf h.owns.excl hleaf.1 hleaf.2 hnode⟩

/-- Two pages have two frames. -/
theorem page_inj (h : Loaded mem₀ m c tables pages) {pg pg' f : ℕ} {page page' : Page}
    (hpage : pages pg = some (f, page)) (hpage' : pages pg' = some (f, page')) : pg = pg' := by
  obtain ⟨huser, -, -⟩ := h.held _ _ _ hpage
  obtain ⟨huser', -, -⟩ := h.held _ _ _ hpage'
  have hpath := h.owns.excl.own_inj (.inl (0, pathOf (pg * 4096))) (.inl (0, pathOf (pg' * 4096)))
    f (owners_node.mpr ⟨treePath_pathOf huser, h.node_of_page hpage⟩)
    (owners_node.mpr ⟨treePath_pathOf huser', h.node_of_page hpage'⟩)
  rw [Sum.inl.injEq, Prod.mk.injEq] at hpath
  have hpages := pathOf_inj huser huser' hpath.2
  omega

/-- A fresh page is mapped: a table is missing and there is no frame for it, or the page has the next
frame, and holds what it was filled with or what the frame has held. -/
theorem mapFresh (h : Loaded mem₀ m c tables pages) {va : ℕ} (hva : IsUserVa va)
    {fill : Option Page} {a : ℕ}
    (hok : Mm.mapFresh m (c * frameSize) va fill (vmmUser ||| vmmWrite) = .ok (a, m')) :
    a = nextFrame m.pmm * frameSize ∧
      ((NoFrame m'.pmm ∧ known tables (tablePath va) = false) ∨
        (Loaded mem₀ m' c (tablePath va :: tables) (Function.update pages (va / 4096)
            (some (nextFrame m.pmm, fill.getD (mem₀ (nextFrame m.pmm))))) ∧
          m'.pmm = pmmAfter (1 + missingTables tables va) m.pmm)) := by
  rcases h.owns.mapFresh (e := .hand) rfl (c * frameSize) va fill (vmmUser ||| vmmWrite) with
    hfail | ⟨f, m₁, heq, hfetched, hown₁, hsame₁⟩
  · rw [hfail] at hok
    cases hok
  rw [heq] at hok
  obtain ⟨rfl, hm'⟩ := Prod.mk.inj (Except.ok.inj hok)
  have hnext : nextFrame m.pmm = f := by
    rw [nextFrame, hfetched.alloc, Nat.mul_div_cancel _ (by decide : 0 < frameSize)]
  rw [hnext]
  refine ⟨rfl, ?_⟩
  have hwalked : Walked m₁ m₁ c (Function.update (fun _ ↦ none) .hand (some f)) (known tables) := by
    refine ⟨hown₁, fun p hp hne hshort ↦ ?_, SameLeaves.refl, fun _ _ ↦ rfl⟩
    rw [← h.tables p hp hne hshort, ← onlyRoot_zero c,
      node_congr (fun g ↦ hfetched.tables h.owns) hp]
  rw [vmmMap_eq_mapWalk] at hm'
  rcases hwalked.walk hva (vmmUser ||| vmmWrite) with
    ⟨hfail, hfull, hmiss⟩ | ⟨pt, m₂, hwalk, hpt, hdone, hpmm₂⟩
  · left
    rcases hwalk : mapWalk m₁ (c * frameSize) va (vmmUser ||| vmmWrite) with ⟨- | b, m₂⟩
    · rw [hwalk] at hm' hfull
      rw [← hm']
      exact ⟨hfull, hmiss⟩
    · rw [hwalk] at hfail
      cases hfail
  right
  rw [hwalk] at hm'
  simp only at hm'
  have hwritten := hdone.setLeaf hva hpt (vmmUser ||| vmmWrite)
  have hpmm' : m'.pmm = m₂.pmm := by rw [← hm', Machine.setWord_pmm]
  rw [hm'] at hwritten
  have hpmm : m'.pmm = pmmAfter (1 + missingTables tables va) m.pmm := by
    have hone : m₁.pmm = pmmAfter 1 m.pmm := by
      rw [pmmAfter, Function.iterate_one, hfetched.alloc]
    rw [hpmm', hpmm₂, hone, pmmAfter_add, Nat.add_comm]
  refine ⟨⟨hwritten.owns, hwritten.tables, fun v hv ↦ ?_, fun pg g page hpage ↦ ?_,
    fun g hg ↦ ?_⟩, hpmm⟩
  · rw [hwritten.leaf v hv]
    by_cases hpg : v / 4096 = va / 4096
    · rw [if_pos hpg, hpg, Function.update_self, Option.map_some]
    · have hleaves := hsame₁ 0 (pathOf v) (isLeaf_pathOf hv)
      rw [onlyRoot_zero] at hleaves
      rw [if_neg hpg, Function.update_of_ne hpg, ← h.leaf v hv, hleaves]
  · by_cases hpg : pg = va / 4096
    · rw [hpg, Function.update_self, Option.some.injEq, Prod.mk.injEq] at hpage
      obtain ⟨rfl, rfl⟩ := hpage
      rw [IsUserVa] at hva
      refine ⟨?_, hfetched.small, ?_⟩
      · rw [hpg, IsUserVa]
        omega
      · rw [hwritten.kept f (not_isTable_of_loose hdone.owns.excl (Function.update_self ..)),
          hfetched.mine, h.free f hfetched.fresh]
    · rw [Function.update_of_ne hpg] at hpage
      obtain ⟨huser, hsmall, hmem⟩ := h.held pg g page hpage
      refine ⟨huser, hsmall, ?_⟩
      rw [hwritten.kept g (hdone.not_isTable_page hsame₁ (isLeaf_pathOf huser) (h.node_of_page hpage)),
        hfetched.others g ?_]
      · exact hmem
      · rintro rfl
        exact hfetched.fresh (h.frame_of_page hpage).1.2
  · -- what is free now was free before, and is no table
    rw [hwritten.kept g fun hin ↦ hg (hpmm' ▸ hdone.owns.marked_of_isTable hin),
      hfetched.others g ?_]
    · refine h.free g fun hin ↦ hg ?_
      rw [hpmm]
      exact (pmmAfter_spec h.owns.pmm _).2 g hin
    · rintro rfl
      have hheld : Function.update (fun _ : Holder ↦ none) .hand (some g) .hand = some g :=
        Function.update_self ..
      rw [hpmm'] at hg
      exact hg (hdone.owns.excl.marked_of_own (.inr .hand) g hheld).2

/-- A new address space has no pages. -/
theorem newSpace (hpmm : PmmOk m.pmm) {bootPml4 : ℕ}
    (hne : (vmmNewAddressSpace m bootPml4).1 ≠ 0) :
    ∃ c, (vmmNewAddressSpace m bootPml4).1 = c * frameSize ∧
      Loaded m.mem (vmmNewAddressSpace m bootPml4).2 c [] (fun _ ↦ none) := by
  rcases vmmNewAddressSpace_spec (owns_none hpmm) 0 bootPml4 with hfail | ⟨c, m', heq, -, hown, -⟩
  · rw [hfail] at hne
    exact absurd rfl hne
  rcases vmmNewAddressSpace_cases hpmm bootPml4 with hfail | ⟨c', m'', heq', hnew⟩
  · rw [hfail] at hne
    exact absurd rfl hne
  rw [heq, Prod.mk.injEq] at heq'
  obtain ⟨hc, rfl⟩ := heq'
  obtain rfl : c = c' := Nat.eq_of_mul_eq_mul_right (by decide : 0 < frameSize) hc
  have htop : pteFrame (m'.mem c 2) = none := by
    rw [hnew.empty 2 (by decide)]
    exact pteFrame_zero
  have hempty : ∀ p, TreePath 4 2 p → p ≠ [] → node pteFrame m'.mem (some c) p = none :=
    fun p hp hne ↦ node_of_empty_top htop hp hne
  rw [heq]
  refine ⟨c, rfl, hown, fun p hp hne _ ↦ ?_, fun va hva ↦ ?_, nofun, fun g hg ↦ ?_⟩
  · rw [hempty p hp hne]
    exact iff_of_false Bool.false_ne_true Bool.false_ne_true
  · exact link_eq_none.mpr (hempty _ (treePath_pathOf hva) (List.cons_ne_nil _ _))
  · refine hnew.same g fun hgc ↦ hg ?_
    rw [hgc, hnew.marks]
    exact Or.inr rfl

/-- `kmalloc` takes frames that are free. -/
theorem kmalloc (h : Loaded mem₀ m c tables pages) (need : ℕ) :
    Loaded mem₀ { m with pmm := (Mm.kmalloc m.pmm need).2 } c tables pages := by
  obtain ⟨hok, -, hmark⟩ := kmalloc_spec h.owns.pmm need
  exact ⟨h.owns.mono_pmm hok hmark, h.tables, h.leaf, h.held,
    fun g hg ↦ h.free g fun hin ↦ hg (hmark g hin)⟩

/-! ### Pages in a row -/

theorem mapPages_noFrame (hfull : NoFrame m.pmm) {fills : List (Option Page)} (hne : fills ≠ [])
    (cr3 va : ℕ) {r : List ℕ × Machine} : Mm.mapPages m cr3 va fills ≠ .ok r := by
  obtain ⟨fill, rest, rfl⟩ := List.exists_cons_of_ne_nil hne
  rw [NoFrame] at hfull
  rw [Mm.mapPages, Mm.mapFresh, hfull, if_pos rfl]
  rintro ⟨⟩

theorem pagesFrom_succ (va n : ℕ) : pagesFrom va (n + 1) = va :: pagesFrom (va + 4096) n := by
  rw [pagesFrom, List.range_succ_eq_map, List.map_cons, List.map_map, pagesFrom, Nat.zero_mul,
    Nat.add_zero]
  congr 1
  refine List.map_congr_left fun j _ ↦ ?_
  simp only [Function.comp_apply, Nat.succ_eq_add_one]
  omega

/-- Pages in a row are mapped: the last one is not, for want of a table, or all of them are. -/
theorem mapPages (h : Loaded mem₀ m c tables pages) (fills : List (Option Page)) {va : ℕ}
    (hlo : userImageBase ≤ va) (hhi : va + fills.length * 4096 ≤ userModelBase) {frames : List ℕ}
    (hok : Mm.mapPages m (c * frameSize) va fills = .ok (frames, m')) :
    frames = (pageFrames m.pmm tables (pagesFrom va fills.length)).map (· * frameSize) ∧
      ((NoFrame m'.pmm ∧ ∃ init last, pagesFrom va fills.length = init ++ [last] ∧
          known (afterPages m.pmm tables init).2 (tablePath last) = false) ∨
        ∃ pages', Loaded mem₀ m' c (afterPages m.pmm tables (pagesFrom va fills.length)).2 pages' ∧
          m'.pmm = (afterPages m.pmm tables (pagesFrom va fills.length)).1 ∧
          ∀ pg, pages' pg =
            if va / 4096 ≤ pg ∧ pg < va / 4096 + fills.length then
              some ((pageFrames m.pmm tables (pagesFrom va fills.length)).getD (pg - va / 4096) 0,
                (fills.getD (pg - va / 4096) none).getD (mem₀
                  ((pageFrames m.pmm tables (pagesFrom va fills.length)).getD (pg - va / 4096) 0)))
            else pages pg) := by
  induction fills generalizing m va tables pages frames with
  | nil =>
    obtain ⟨rfl, rfl⟩ := Prod.mk.inj (Except.ok.inj hok)
    refine ⟨rfl, Or.inr ⟨pages, h, rfl, fun pg ↦ (if_neg ?_).symm⟩⟩
    simp only [List.length_nil]
    omega
  | cons fill rest ih =>
    rw [List.length_cons] at hhi
    have hva : IsUserVa va := isUserVa_of_low hlo (by omega)
    rw [Mm.mapPages] at hok
    rcases hfirst : Mm.mapFresh m (c * frameSize) va fill (vmmUser ||| vmmWrite) with e | ⟨a, m₁⟩
    · rw [hfirst] at hok
      cases hok
    rw [hfirst] at hok
    simp only at hok
    rcases hrest : Mm.mapPages m₁ (c * frameSize) (va + 4096) rest with e | ⟨frames', m₂⟩
    · rw [hrest] at hok
      cases hok
    rw [hrest] at hok
    obtain ⟨rfl, rfl⟩ := Prod.mk.inj (Except.ok.inj hok)
    rw [List.length_cons, pagesFrom_succ]
    obtain ⟨rfl, ⟨hfull, hmiss⟩ | ⟨h₁, hpmm₁⟩⟩ := h.mapFresh hva hfirst
    · -- without a frame left, this was the last page
      have hlast : rest = [] := by
        by_contra hne
        exact mapPages_noFrame hfull hne _ _ hrest
      subst hlast
      obtain ⟨rfl, rfl⟩ := Prod.mk.inj (Except.ok.inj hrest)
      exact ⟨rfl, Or.inl ⟨hfull, [], va, rfl, hmiss⟩⟩
    · obtain ⟨rfl, hcases⟩ := ih h₁ (by omega) (by omega) hrest
      rw [hpmm₁] at hcases ⊢
      refine ⟨rfl, ?_⟩
      rcases hcases with ⟨hfull, init, last, hsplit, hmiss⟩ | ⟨pages', h', hpmm', hpages⟩
      · exact Or.inl ⟨hfull, va :: init, last, by rw [hsplit]; rfl, hmiss⟩
      · refine Or.inr ⟨pages', h', hpmm', fun pg ↦ ?_⟩
        rw [hpages, pageFrames]
        have hdiv : (va + 4096) / 4096 = va / 4096 + 1 := by omega
        rw [hdiv]
        by_cases hpg : pg = va / 4096
        · rw [if_neg (by omega), hpg, Function.update_self, if_pos (by omega), Nat.sub_self,
            List.getD_cons_zero, List.getD_cons_zero]
        · rw [Function.update_of_ne hpg]
          by_cases hin : va / 4096 + 1 ≤ pg ∧ pg < va / 4096 + 1 + rest.length
          · obtain ⟨j, rfl⟩ : ∃ j, pg = va / 4096 + 1 + j := ⟨pg - (va / 4096 + 1), by omega⟩
            rw [if_pos hin, if_pos (by omega), Nat.add_sub_cancel_left,
              show va / 4096 + 1 + j - va / 4096 = j + 1 by omega, List.getD_cons_succ,
              List.getD_cons_succ]
          · rw [if_neg hin, if_neg (by omega)]

/-! ### Bytes -/

/-- Bytes are stored in a page. -/
theorem poke (h : Loaded mem₀ m c tables pages) {pg f : ℕ} {page : Page}
    (hpage : pages pg = some (f, page)) (bytes : List Byte) (hfit : bytes.length ≤ frameSize) :
    Loaded mem₀ (pokeBytes m (f * frameSize) bytes) c tables (Function.update pages pg
        (some (f, (pokeBytes m (f * frameSize) bytes).mem f))) ∧
      (pokeBytes m (f * frameSize) bytes).pmm = m.pmm := by
  obtain ⟨huse, hnot⟩ := h.frame_of_page hpage
  obtain ⟨huser, hsmall, -⟩ := h.held pg f page hpage
  obtain ⟨hpmm, hmem⟩ := MemInv.pokeBytes_within m (f * frameSize) bytes (by
    rw [Nat.mul_mod_left, Nat.zero_add]
    exact hfit)
  rw [Nat.mul_div_cancel _ (by decide : 0 < frameSize)] at hmem
  set m₁ := pokeBytes m (f * frameSize) bytes with hm₁
  have htables : ∀ g, IsTable 4 2 pteFrame m.mem (onlyRoot c) g → m₁.mem g = m.mem g :=
    fun g hg ↦ hmem g fun hgf ↦ hnot (hgf ▸ hg)
  have hown : Owns m₁ (onlyRoot c) fun _ ↦ none := by
    have hwrite := (h.owns.write htables).1
    exact ⟨hpmm ▸ hwrite.pmm, hpmm ▸ hwrite.excl⟩
  refine ⟨⟨hown, fun p hp hne hshort ↦ ?_, fun v hv ↦ ?_, fun pg' g page' hpage' ↦ ?_,
    fun g hg ↦ ?_⟩, hpmm⟩
  · rw [← h.tables p hp hne hshort, ← onlyRoot_zero c, node_congr htables hp]
  · have hlink := link_congr htables (t := 0) (treePath_pathOf hv)
    rw [onlyRoot_zero] at hlink
    rw [hlink, h.leaf v hv]
    by_cases hvpg : v / 4096 = pg
    · rw [hvpg, Function.update_self, hpage]
      rfl
    · rw [Function.update_of_ne hvpg]
  · by_cases hsame : pg' = pg
    · rw [hsame, Function.update_self, Option.some.injEq, Prod.mk.injEq] at hpage'
      obtain ⟨rfl, rfl⟩ := hpage'
      exact ⟨hsame ▸ huser, hsmall, rfl⟩
    · rw [Function.update_of_ne hsame] at hpage'
      obtain ⟨huser', hsmall', hmem'⟩ := h.held pg' g page' hpage'
      refine ⟨huser', hsmall', ?_⟩
      rw [hmem g ?_, hmem']
      rintro rfl
      exact hsame (h.page_inj hpage' hpage)
  · rw [hpmm] at hg
    rw [hmem g fun hgf ↦ hg (hgf ▸ huse.2)]
    exact h.free g hg

end Loaded

end NoOsKernel.Mm
