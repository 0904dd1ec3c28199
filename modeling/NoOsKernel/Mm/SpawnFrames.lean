import NoOsKernel.Mm.ScriptCopy
import NoOsKernel.Mm.Teardown

/-!
# What a spawn takes and gives back

`sched_spawn` takes frames for the top table, for the pages of the image, the script and the stack,
and within `vmm_map` for page tables, and gives an error when it finds no frame for a page. The end
of its three loops is one of three (`Loading`): all pages are mapped; there is no frame for some
page; or there is one, but `vmm_map` lacks a table, which it does not report. Which of them depends
on the number of free frames only (`SpawnFits`).
-/

set_option autoImplicit false
set_option relaxedAutoImplicit false

namespace NoOsKernel.Mm

open Lib Lib.Radix

/-! ### How loading ends -/

/-- There was a frame for page `j`, and none for one of its tables: the frame stays in hand. -/
structure Stuck (p₁ : Pmm) (c : ℕ) (paths : Finset (List ℕ)) (vas : List ℕ) (m : Machine)
    (j f : ℕ) (paths' : Finset (List ℕ)) : Prop where
  lt : j < vas.length
  full : freeCount m.pmm = 0
  grown : Grown p₁ m c (some f) paths'
  sub : withPages paths (vas.take j) ⊆ paths'
  sup : paths' ⊆ withPages paths (vas.take (j + 1))
  miss : ∀ va, vas[j]? = some va → tablePath va ∉ paths'

/-- How it ends when pages are mapped one after the other: all are mapped; there is no frame for one
of them; or one gets stuck, which is seen at the next page only. -/
inductive Loading (p₁ : Pmm) (c : ℕ) (paths : Finset (List ℕ)) (vas : List ℕ) :
    Except Machine Machine → Prop
  | mapped {m : Machine} (h : Grown p₁ m c none (withPages paths vas)) :
      Loading p₁ c paths vas (.ok m)
  | short {m : Machine} {j : ℕ} (hj : j < vas.length) (hfull : freeCount m.pmm = 0)
      (h : Grown p₁ m c none (withPages paths (vas.take j))) : Loading p₁ c paths vas (.error m)
  | stuck {m : Machine} {j f : ℕ} {paths' : Finset (List ℕ)}
      (h : Stuck p₁ c paths vas m j f paths') : Loading p₁ c paths vas (.error m)
  | unseen {m : Machine} {j f : ℕ} {paths' : Finset (List ℕ)}
      (h : Stuck p₁ c paths vas m j f paths') (hlast : j + 1 = vas.length) :
      Loading p₁ c paths vas (.ok m)

theorem withPages_append (paths : Finset (List ℕ)) (vas vas' : List ℕ) :
    withPages paths (vas ++ vas') = withPages (withPages paths vas) vas' :=
  List.foldl_append ..

variable {p₁ : Pmm} {m : Machine} {c : ℕ} {paths : Finset (List ℕ)} {vas vas' : List ℕ}
  {r : Except Machine Machine}

/-- Pages that come later, before which everything was mapped. -/
theorem Stuck.append {j f : ℕ} {paths' : Finset (List ℕ)}
    (h : Stuck p₁ c (withPages paths vas) vas' m j f paths') :
    Stuck p₁ c paths (vas ++ vas') m (vas.length + j) f paths' := by
  have htake : ∀ i, (vas ++ vas').take (vas.length + i) = vas ++ vas'.take i :=
    fun i ↦ List.take_length_add_append i
  refine ⟨by rw [List.length_append]; have := h.lt; omega, h.full, h.grown, ?_, ?_, ?_⟩
  · rw [htake, withPages_append]
    exact h.sub
  · rw [Nat.add_assoc, htake, withPages_append]
    exact h.sup
  · intro va hva
    rw [List.getElem?_append_right (Nat.le_add_right _ _), Nat.add_sub_cancel_left] at hva
    exact h.miss va hva

/-- With a frame left at the end, no page has got stuck. -/
theorem Loading.grown (h : Loading p₁ c paths vas (.ok m)) (hleft : freeCount m.pmm ≠ 0) :
    Grown p₁ m c none (withPages paths vas) := by
  cases h with
  | mapped h => exact h
  | unseen h => exact absurd h.full hleft

theorem Loading.append (h : Loading p₁ c (withPages paths vas) vas' r) :
    Loading p₁ c paths (vas ++ vas') r := by
  cases h with
  | mapped h => exact .mapped (withPages_append paths vas vas' ▸ h)
  | short hj hfull h =>
    refine .short (by rw [List.length_append]; exact Nat.add_lt_add_left hj _) hfull ?_
    rw [List.take_length_add_append, withPages_append]
    exact h
  | stuck h => exact .stuck h.append
  | unseen h hlast =>
    exact .unseen h.append (by rw [List.length_append]; omega)

theorem Loading.cons {va : ℕ} (h : Loading p₁ c (paths ∪ nodesOf va) vas r) :
    Loading p₁ c paths (va :: vas) r := by
  have hone : Loading p₁ c (withPages paths [va]) vas r := h
  exact hone.append

/-- Pages that come later, which are not reached. -/
theorem Stuck.before {j f : ℕ} {paths' : Finset (List ℕ)} (h : Stuck p₁ c paths vas m j f paths')
    (vas' : List ℕ) : Stuck p₁ c paths (vas ++ vas') m j f paths' := by
  have hlt := h.lt
  refine ⟨by rw [List.length_append]; omega, h.full, h.grown, ?_, ?_, fun va hva ↦ ?_⟩
  · rw [List.take_append_of_le_length hlt.le]
    exact h.sub
  · rw [List.take_append_of_le_length hlt]
    exact h.sup
  · rw [List.getElem?_append_left hlt] at hva
    exact h.miss va hva

/-- Further pages are mapped: what got stuck is seen now. -/
theorem Loading.bind (h : Loading p₁ c paths vas r) (go : Machine → Except Machine Machine)
    (hgo : ∀ m, r = .ok m → Grown p₁ m c none (withPages paths vas) →
      Loading p₁ c (withPages paths vas) vas' (go m))
    (hfull : ∀ m, PmmOk m.pmm → freeCount m.pmm = 0 → go m = .error m) :
    Loading p₁ c paths (vas ++ vas') (r.bind go) := by
  cases h with
  | mapped h => exact (hgo _ rfl h).append
  | short hj hfree h =>
    refine .short (hj.trans_le ?_) hfree ?_
    · rw [List.length_append]
      exact Nat.le_add_right _ _
    rw [List.take_append_of_le_length hj.le]
    exact h
  | stuck h => exact .stuck (h.before vas')
  | unseen h hlast =>
    have hend : Except.bind (.ok _) go = _ := hfull _ h.grown.owns.pmm h.full
    rw [hend]
    exact .stuck (h.before vas')

/-- Memory may change outside the tables. -/
theorem Loading.write (h : Loading p₁ c paths vas (.ok m)) (mem' : ℕ → Page)
    (hmem : ∀ g, IsTable 4 2 pteFrame m.mem (onlyRoot c) g → mem' g = m.mem g) :
    Loading p₁ c paths vas (.ok { m with mem := mem' }) := by
  cases h with
  | mapped h => exact .mapped (h.write hmem)
  | unseen h hlast =>
    exact .unseen ⟨h.lt, h.full, h.grown.write hmem, h.sub, h.sup, h.miss⟩ hlast

/-! ### The loops -/

theorem mapPages_full (hpmm : PmmOk m.pmm) (hfull : freeCount m.pmm = 0)
    {fills : List (Option Page)} (hne : fills ≠ []) (cr3 va : ℕ) :
    mapPages m cr3 va fills = .error m := by
  obtain ⟨fill, rest, rfl⟩ := List.exists_cons_of_ne_nil hne
  have hnone : pmmAllocFrame m.pmm = (0, m.pmm) := (noFrame_iff hpmm).mpr hfull
  rw [mapPages, mapFresh, hnone, if_pos rfl]

/-- A loop that maps pages in a row. -/
theorem Grown.mapPages (h : Grown p₁ m c none paths) (fills : List (Option Page)) (va : ℕ)
    (hva : ∀ v ∈ pagesFrom va fills.length, pml4i v = 2)
    (hnew : ∀ v ∈ pagesFrom va fills.length, pathOf v ∉ paths)
    (hdistinct : ((pagesFrom va fills.length).map pathOf).Nodup) :
    Loading p₁ c paths (pagesFrom va fills.length)
      ((Mm.mapPages m (c * frameSize) va fills).map Prod.snd) := by
  induction fills generalizing m va paths with
  | nil => exact .mapped h
  | cons fill rest ih =>
    rw [List.length_cons, Loaded.pagesFrom_succ] at hva hnew hdistinct ⊢
    rw [List.forall_mem_cons] at hva hnew
    rw [List.map_cons, List.nodup_cons] at hdistinct
    rw [Mm.mapPages]
    rcases h.mapFresh hva.1 hnew.1 fill (vmmUser ||| vmmWrite) with
      ⟨heq, hfull⟩ | ⟨f, m', paths', heq, hfull, hgrown, hsub, hsup, hmiss⟩ | ⟨f, m', heq, hgrown⟩
    · rw [heq]
      exact .short (Nat.succ_pos _) hfull h
    · rw [heq]
      have hstuck : Stuck p₁ c paths (va :: pagesFrom (va + 4096) rest.length) m' 0 f paths' := by
        refine ⟨Nat.succ_pos _, hfull, hgrown, hsub, hsup, fun v hv ↦ ?_⟩
        rw [← Option.some.inj hv]
        exact hmiss
      by_cases hrest : rest = []
      · rw [hrest] at hstuck ⊢
        exact .unseen hstuck rfl
      · simp only [mapPages_full hgrown.owns.pmm hfull hrest]
        exact .stuck hstuck
    · have hnew' : ∀ v ∈ pagesFrom (va + 4096) rest.length, pathOf v ∉ paths ∪ nodesOf va := by
        intro v hv hin
        rcases Finset.mem_union.mp hin with hold | hsame
        · exact hnew.2 v hv hold
        · exact hdistinct.1 (pathOf_mem_nodesOf.mp hsame ▸ List.mem_map_of_mem hv)
      have hloading := ih hgrown (va + 4096) hva.2 hnew' hdistinct.2
      rw [heq]
      simp only
      rcases hrest : Mm.mapPages m' (c * frameSize) (va + 4096) rest with e | ⟨frames, m''⟩
      · rw [hrest] at hloading
        exact hloading.cons
      · rw [hrest] at hloading
        exact hloading.cons

/-! ### The three loops of a spawn -/

theorem mem_pagesFrom_iff {base count va : ℕ} :
    va ∈ pagesFrom base count ↔ ∃ j < count, base + j * 4096 = va := by
  rw [pagesFrom, List.mem_map]
  simp only [List.mem_range]

theorem isUserVa_spawnVas {n va : ℕ} (hn : n ≤ 2 ^ 18) (hva : va ∈ spawnVas n) :
    IsUserVa va ∧ va % 4096 = 0 ∧ va < userModelBase := by
  have hbases : userImageBase = 0x10000000000 ∧ userScriptBase = 0x100C0000000 ∧
      userStackBase = 0x100F0000000 ∧ userModelBase = 0x100F1000000 := ⟨rfl, rfl, rfl, rfl⟩
  rw [spawnVas, List.mem_append, List.mem_append] at hva
  rw [IsUserVa]
  rcases hva with (hin | hin) | hin
  all_goals
    obtain ⟨j, hj, rfl⟩ := mem_pagesFrom_iff.mp hin
    omega

/-- The pages of a spawn are different pages. -/
theorem nodup_pathOf_spawnVas {n : ℕ} (hn : n ≤ 2 ^ 18) : ((spawnVas n).map pathOf).Nodup := by
  refine List.Nodup.map_on (fun va hva va' hva' hsame ↦ ?_) (nodup_spawnVas hn)
  obtain ⟨huser, halign, -⟩ := isUserVa_spawnVas hn hva
  obtain ⟨huser', halign', -⟩ := isUserVa_spawnVas hn hva'
  have hpage := pathOf_inj huser huser' hsame
  omega

theorem nil_not_pathOf (va : ℕ) : pathOf va ∉ ({[]} : Finset (List ℕ)) := fun hin ↦
  absurd (Finset.mem_singleton.mp hin) (List.cons_ne_nil _ _)

/-- The three loops as one. -/
theorem loadImage_eq (m : Machine) (cr3 : ℕ) (blob : List Page) (code : List Byte) :
    loadImage m cr3 blob code =
      (((mapPages m cr3 userImageBase (blob.map some)).map Prod.snd).bind fun m ↦
        (mapPages m cr3 userScriptBase (List.replicate 8 none)).map fun r ↦
          scriptCopy (r.1.headD 0) code r.2).bind fun m ↦
        (mapPages m cr3 userStackBase (List.replicate 16 none)).map Prod.snd := by
  rw [loadImage]
  rcases mapPages m cr3 userImageBase (blob.map some) with e | ⟨frames, m₁⟩
  · rfl
  simp only [Except.map, Except.bind]
  rcases mapPages m₁ cr3 userScriptBase (List.replicate 8 none) with e | ⟨frames, m₂⟩
  · rfl
  simp only [scriptCopy]
  rcases mapPages (pokeBytes m₂ (frames.headD 0) (code.take 32768 ++ [0])) cr3 userStackBase
    (List.replicate 16 none) with e | ⟨frames, m₃⟩ <;> rfl

/-- A growing address space without window pages satisfies the invariant of the machine. -/
theorem Grown.memInv (h : Grown p₁ m c none paths)
    (hwin : ∀ pg < modelPages, pathOf (modelVa pg) ∉ paths) :
    MemInv m (onlyRoot c) (fun _ _ ↦ none) none := by
  have hloose : looseOf m.mem (onlyRoot c) (fun _ _ ↦ none) none = fun _ ↦ none := by
    funext e
    cases e <;> simp [looseOf]
  have howns := h.owns
  rw [inHand_none, ← hloose] at howns
  refine ⟨howns, fun t pg w hpg hlink ↦ ?_,
    fun _ _ f hf ↦ absurd hf (Option.some_ne_none f).symm⟩
  exfalso
  have hsome : node pteFrame m.mem (onlyRoot c t) (pathOf (modelVa pg)) ≠ none := by
    intro hnone
    rw [pathOf] at hlink hnone
    rw [link_eq_none.mpr hnone] at hlink
    cases hlink
  by_cases ht : t = 0
  · rw [ht, onlyRoot_zero] at hsome
    refine hwin pg hpg ((h.tree _ (treePath_pathOf (isUserVa_modelVa hpg))).mp ?_)
    exact Option.isSome_iff_ne_none.mpr hsome
  · rw [onlyRoot, Function.update_of_ne ht, node_none] at hsome
    exact hsome rfl

/-- The script pages, and the copy when they are all there: it stays in the first of their frames,
or is not reached. -/
theorem Grown.scriptPages (h : Grown p₁ m c none paths) {code : List Byte}
    (hwin : ∀ pg < modelPages, pathOf (modelVa pg) ∉ paths)
    (hva : ∀ v ∈ pagesFrom userScriptBase 8, pml4i v = 2)
    (hnew : ∀ v ∈ pagesFrom userScriptBase 8, pathOf v ∉ paths)
    (hdistinct : ((pagesFrom userScriptBase 8).map pathOf).Nodup)
    (hcopy : code.length ≤ 4095 ∨
      freeCount p₁ < (withPages paths (pagesFrom userScriptBase 8)).card) :
    Loading p₁ c paths (pagesFrom userScriptBase 8)
      ((Mm.mapPages m (c * frameSize) userScriptBase (List.replicate 8 none)).map fun r ↦
        scriptCopy (r.1.headD 0) code r.2) := by
  have hload := h.mapPages (List.replicate 8 none) userScriptBase hva hnew hdistinct
  rw [List.length_replicate] at hload
  rcases hpages : Mm.mapPages m (c * frameSize) userScriptBase (List.replicate 8 none) with
    e | ⟨frames, m'⟩
  · rw [hpages] at hload
    exact hload
  rw [hpages] at hload
  change Loading p₁ c paths _ (.ok m') at hload
  change Loading p₁ c paths _ (.ok (scriptCopy (frames.headD 0) code m'))
  rcases hcopy with hshort | hfew
  · obtain ⟨m'', -, hfail | ⟨f, frames', hok, hnot⟩⟩ :=
      (h.memInv hwin).scriptPages (onlyRoot_zero c)
    · rw [hpages] at hfail
      cases hfail
    · rw [hpages, Except.ok.injEq, Prod.mk.injEq] at hok
      obtain ⟨rfl, rfl⟩ := hok
      rw [List.headD_cons]
      have hpmm : (scriptCopy (f * frameSize) code m').pmm = m'.pmm := by
        refine (MemInv.pokeBytes_within m' (f * frameSize) _ ?_).1
        rw [length_copied (by omega), Nat.mul_mod_left, Nat.zero_add, frameSize]
        omega
      have hwrite := hload.write (scriptCopy (f * frameSize) code m').mem fun g hg ↦
        scriptCopy_mem hshort f m' fun hgf ↦ hnot (hgf ▸ hg)
      rw [← hpmm] at hwrite
      exact hwrite
  · -- the loop does not get through: there are too few frames, or it got stuck before
    exfalso
    cases hload with
    | mapped h' =>
      have hcount := h'.count
      omega
    | unseen h' hlast =>
      rename_i j f paths'
      have hj : j = 7 := by
        rw [pagesFrom, List.length_map, List.length_range] at hlast
        omega
      subst hj
      refine h'.miss (userScriptBase + 7 * 4096) rfl (h'.sub (mem_withPages.mpr (Or.inr ?_)))
      exact ⟨userScriptBase, by decide, ⟨[pti userScriptBase], by decide⟩⟩

/-- Different pages: those that come later are not mapped yet. -/
theorem not_mem_of_nodup (hdistinct : ((vas ++ vas').map pathOf).Nodup) :
    ∀ v ∈ vas', pathOf v ∉ treeOf vas := by
  intro v hv hin
  rw [List.map_append, List.nodup_append] at hdistinct
  rcases mem_withPages.mp hin with hnil | ⟨va, hva, hsuffix⟩
  · exact nil_not_pathOf v hnil
  · exact hdistinct.2.2 _ (List.mem_map_of_mem hva) _ (List.mem_map_of_mem hv)
      (hsuffix.eq_of_length rfl).symm

/-- The three loops, when the copy of the script stays in its page or is not reached. -/
theorem Grown.loadImage (h : Grown p₁ m c none {[]}) {blob : List Page}
    (hblob : blob.length ≤ 2 ^ 18) {code : List Byte} (hcopy : code.length ≤ 4095 ∨
      freeCount p₁ < (treeOf (pagesFrom userImageBase blob.length ++
        pagesFrom userScriptBase 8)).card) :
    Loading p₁ c {[]} (spawnVas blob.length) (Mm.loadImage m (c * frameSize) blob code) := by
  have hdistinct := nodup_pathOf_spawnVas hblob
  have hva : ∀ v ∈ spawnVas blob.length, pml4i v = 2 :=
    fun v hv ↦ (isUserVa_spawnVas hblob hv).1.pml4i_eq
  have hstackNew := not_mem_of_nodup hdistinct
  rw [spawnVas, List.map_append, List.nodup_append] at hdistinct
  obtain ⟨htwo, hstack, -⟩ := hdistinct
  have hscriptNew := not_mem_of_nodup htwo
  rw [List.map_append, List.nodup_append] at htwo
  obtain ⟨himage, hscript, -⟩ := htwo
  rw [treeOf, withPages_append] at hcopy
  rw [spawnVas, List.forall_mem_append, List.forall_mem_append] at hva
  obtain ⟨⟨hvaImage, hvaScript⟩, hvaStack⟩ := hva
  have hwin : ∀ pg < modelPages,
      pathOf (modelVa pg) ∉ treeOf (pagesFrom userImageBase blob.length) := by
    intro pg hpg hin
    rcases mem_withPages.mp hin with hnil | ⟨va, hva, hsuffix⟩
    · exact nil_not_pathOf _ hnil
    · have hsame : pathOf (modelVa pg) = pathOf va := hsuffix.eq_of_length rfl
      obtain ⟨huser, -, hlow⟩ := isUserVa_spawnVas hblob
        (List.mem_append_left _ (List.mem_append_left _ hva))
      have hpage := pathOf_inj (isUserVa_modelVa hpg) huser hsame
      rw [modelVa] at hpage
      rw [userModelBase] at hpage hlow
      omega
  have hfirst := h.mapPages (blob.map some) userImageBase
  rw [List.length_map] at hfirst
  rw [loadImage_eq, spawnVas]
  refine ((hfirst hvaImage (fun v _ ↦ nil_not_pathOf v) himage).bind _ (fun m' _ h' ↦ ?_)
    fun m' hpmm hfull ↦ ?_).bind _ (fun m' _ h' ↦ ?_) fun m' hpmm hfull ↦ ?_
  · exact h'.scriptPages hwin hvaScript hscriptNew hscript hcopy
  · rw [mapPages_full hpmm hfull (by decide)]
    rfl
  · have hlast := h'.mapPages (List.replicate 16 none) userStackBase
    rw [List.length_replicate] at hlast
    exact hlast hvaStack hstackNew hstack
  · rw [mapPages_full hpmm hfull (by decide)]
    rfl

/-! ### Counting -/

/-- Stuck means that there was a frame for the page, and not for all tables. -/
theorem Stuck.between {j f : ℕ} {paths' : Finset (List ℕ)}
    (h : Stuck p₁ c {[]} vas m j f paths') (hva : ∀ v ∈ vas, pml4i v = 2) :
    (treeOf (vas.take j)).card < freeCount p₁ ∧
      freeCount p₁ < (treeOf (vas.take (j + 1))).card := by
  obtain ⟨va, hget⟩ : ∃ va, vas[j]? = some va := ⟨_, List.getElem?_eq_getElem h.lt⟩
  have hcount := h.grown.count
  have hlow := Finset.card_le_card h.sub
  have hmiss := h.miss va hget
  have hleaf : pathOf va ∉ insert (tablePath va) paths' := by
    rw [Finset.mem_insert, not_or]
    refine ⟨fun heq ↦ absurd (congrArg List.length heq) (by simp [pathOf, tablePath]), fun hin ↦ ?_⟩
    have hpath := treePath_of_pml4i (hva va (List.mem_of_getElem? hget))
    exact hmiss (h.grown.mem_of_cons hpath hin)
  have hnode : ∀ p, p <:+ pathOf va → p ∈ withPages {[]} (vas.take (j + 1)) := fun p hp ↦
    mem_withPages.mpr (Or.inr ⟨va, List.mem_of_getElem? (i := j) (by
      rw [List.getElem?_take_of_lt (Nat.lt_succ_self j), hget]), hp⟩)
  have hhigh := Finset.card_le_card (Finset.insert_subset (hnode _ List.suffix_rfl)
    (Finset.insert_subset (hnode (tablePath va) ⟨[pti va], rfl⟩) h.sup))
  rw [Finset.card_insert_of_notMem hleaf, Finset.card_insert_of_notMem hmiss] at hhigh
  rw [h.full] at hcount
  simp only [Option.toList, List.length_cons, List.length_nil] at hcount
  rw [treeOf, treeOf]
  omega

/-- Every page costs a frame at least. -/
theorem card_treeOf_take_lt (hdistinct : (vas.map pathOf).Nodup) {j j' : ℕ} (hlt : j < j')
    (hle : j' ≤ vas.length) : (treeOf (vas.take j)).card < (treeOf (vas.take j')).card := by
  have hsub : treeOf (vas.take j) ⊆ treeOf (vas.take j') := by
    intro p hp
    rcases mem_withPages.mp hp with hnil | ⟨va, hva, hsuffix⟩
    · exact mem_withPages.mpr (Or.inl hnil)
    · exact mem_withPages.mpr (Or.inr ⟨va, (List.take_prefix_take_left hlt.le).subset hva, hsuffix⟩)
  have hj : j < vas.length := hlt.trans_le hle
  refine Finset.card_lt_card (hsub.ssubset_of_ne fun heq ↦ ?_)
  have hin : pathOf vas[j] ∈ treeOf (vas.take j') := by
    refine mem_withPages.mpr (Or.inr ⟨vas[j], ?_, List.suffix_rfl⟩)
    exact List.mem_of_getElem? (i := j) (by
      rw [List.getElem?_take_of_lt hlt, List.getElem?_eq_getElem hj])
  rw [← heq] at hin
  rw [← List.take_append_drop j vas] at hdistinct
  refine not_mem_of_nodup hdistinct _ ?_ hin
  exact List.mem_of_getElem? (i := 0) (by
    rw [List.getElem?_drop, Nat.add_zero, List.getElem?_eq_getElem hj])

/-! ### What stays taken -/

/-- Without a page nothing is freed. -/
theorem Grown.spaceFrames_nil {hand : Option ℕ} (h : Grown p₁ m c hand paths) (htop : [2] ∉ paths) :
    spaceFrames m.mem (c * frameSize) = [] := by
  have hnone : node pteFrame m.mem (some c) [2] = none := by
    rw [← h.tree [2] ⟨by decide, Or.inr rfl⟩] at htop
    exact Option.not_isSome_iff_eq_none.mp htop
  rw [spaceFrames, descend_node (show node pteFrame m.mem (some c) [] = some c from rfl), hnone]
  rfl

/-- The frame in hand is not given back. -/
theorem Grown.marked_hand {f : ℕ} (h : Grown p₁ m c (some f) paths) :
    Marked (vmmFreeAddressSpace m (c * frameSize)).pmm f := by
  by_cases htop : [2] ∈ paths
  · exact (h.marks_free htop f).mpr (Or.inr rfl)
  · rw [vmmFreeAddressSpace, h.spaceFrames_nil htop]
    exact (h.marks f).mpr (Or.inr (Or.inl rfl))

/-- Nor is the top table, when it has no page below. -/
theorem Grown.marked_root (h : Grown p₁ m c none {[]}) :
    Marked (vmmFreeAddressSpace m (c * frameSize)).pmm c ∧ ¬ Marked p₁ c := by
  have hroot : InSpace m.mem c c := ⟨[], ⟨Nat.zero_le _, Or.inl rfl⟩, rfl⟩
  rw [vmmFreeAddressSpace, h.spaceFrames_nil (by decide)]
  exact ⟨(h.marks c).mpr (Or.inr (Or.inr hroot)), fun hold ↦ (h.fresh c hold).2 hroot⟩

end NoOsKernel.Mm
