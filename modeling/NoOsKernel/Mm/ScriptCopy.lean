import Mathlib.Data.List.Nodup
import NoOsKernel.Mm.Residue

/-!
# The copy of the script

`sched_spawn` maps eight pages for the script of a new process and then copies the script to the
physical address of the first of their frames. The allocator gives the lowest free frame, and the
walk to the first page takes frames for page tables before the second page gets its own: the frame
behind the first one is no frame of the scratch (`succ_not_mem_pageFrames`). The copy is right for
the scripts that fit one page with their terminator, and for no others (`spawn_delivers_iff`).
-/

set_option autoImplicit false
set_option relaxedAutoImplicit false

namespace NoOsKernel.Mm

open Lib Lib.Radix

/-! ### Where first fit puts the frames -/

section FirstFit

variable {p : Pmm} {g : ℕ}

theorem totalFrames_pmmAllocFrame (p : Pmm) :
    (pmmAllocFrame p).2.totalFrames = p.totalFrames := by
  rw [pmmAllocFrame]
  split <;> rfl

theorem totalFrames_pmmAfter (n : ℕ) (p : Pmm) : (pmmAfter n p).totalFrames = p.totalFrames := by
  induction n generalizing p with
  | zero => rfl
  | succ n ih => exact (ih _).trans (totalFrames_pmmAllocFrame p)

/-- The frames below the one the allocator gives are in use. -/
theorem marked_of_lt_nextFrame (hlt : g < nextFrame p) : Marked p g := by
  rw [nextFrame, pmmAllocFrame] at hlt
  rcases hfirst : firstClear p.bitmap 0 p.totalFrames with - | f
  · rw [hfirst, Nat.zero_div] at hlt
    exact absurd hlt (Nat.not_lt_zero g)
  · obtain ⟨-, htotal, -⟩ := firstClear_eq_some hfirst
    rw [hfirst, Nat.mul_div_cancel _ (by decide : 0 < frameSize)] at hlt
    exact ⟨hlt.trans htotal, bitGet_of_lt_firstClear hfirst (Nat.zero_le g) hlt⟩

/-- A frame is taken once all frames below it are. -/
theorem marked_pmmAllocFrame (h : PmmOk p) (htotal : g < p.totalFrames)
    (hbelow : ∀ j < g, Marked p j) : Marked (pmmAllocFrame p).2 g := by
  refine ⟨(totalFrames_pmmAllocFrame p).symm ▸ htotal, ?_⟩
  rw [pmmAllocFrame]
  rcases hfirst : firstClear p.bitmap 0 p.totalFrames with - | f
  · exact bitGet_of_firstClear_eq_none hfirst (Nat.zero_le g) htotal
  · obtain ⟨-, hf, hclear⟩ := firstClear_eq_some hfirst
    have hle : g ≤ f := by
      by_contra hgt
      exact absurd (hclear.symm.trans (hbelow f (not_le.mp hgt)).2) Bool.false_ne_true
    have hbit : bitGet (bitSet p.bitmap f) g = (decide (g = f) || bitGet p.bitmap g) :=
      bitGet_bitSet (hf.trans_le h.covers) g
    refine hbit.trans ?_
    rcases hle.eq_or_lt with heq | hlt
    · rw [decide_eq_true heq, Bool.true_or]
    · rw [bitGet_of_lt_firstClear hfirst (Nat.zero_le g) hlt, Bool.or_true]

/-- Each frame more that is taken is at least one further. -/
theorem marked_pmmAfter (h : PmmOk p) (n : ℕ) (htotal : g < p.totalFrames)
    (hle : g ≤ nextFrame p + n) : Marked (pmmAfter (n + 1) p) g := by
  induction n generalizing g with
  | zero =>
    exact marked_pmmAllocFrame h htotal fun j hj ↦ marked_of_lt_nextFrame (hj.trans_le hle)
  | succ n ih =>
    rw [pmmAfter, Function.iterate_succ_apply']
    refine marked_pmmAllocFrame (pmmAfter_spec h (n + 1)).1 ?_ fun j hj ↦ ?_
    · exact (totalFrames_pmmAfter (n + 1) p).symm ▸ htotal
    · exact ih (hj.trans htotal) (by omega)

/-- The frames of pages were free before. -/
theorem not_marked_of_mem_pageFrames (h : PmmOk p) {tables : List (List ℕ)} {vas : List ℕ}
    (hg : g ∈ pageFrames p tables vas) : g = 0 ∨ g < p.totalFrames ∧ ¬ Marked p g := by
  induction vas generalizing p tables with
  | nil => exact absurd hg List.not_mem_nil
  | cons va rest ih =>
    rcases List.mem_cons.mp hg with rfl | hrest
    · rcases pmmAllocFrame_spec h with hfail | ⟨f, p', heq, -, hlt, hfree, -⟩
      · exact Or.inl (by rw [nextFrame, hfail, Nat.zero_div])
      · rw [nextFrame, heq, Nat.mul_div_cancel _ (by decide : 0 < frameSize)]
        exact Or.inr ⟨hlt, hfree⟩
    · obtain ⟨hok, hkeep⟩ := pmmAfter_spec h (1 + missingTables tables va)
      rcases ih hok hrest with hzero | ⟨hlt, hfree⟩
      · exact Or.inl hzero
      · rw [totalFrames_pmmAfter] at hlt
        exact Or.inr ⟨hlt, fun hmarked ↦ hfree (hkeep g hmarked)⟩

/-- When the walk to the first page takes a frame for a table, no page gets the frame behind that of
the first page. -/
theorem succ_not_mem_pageFrames (h : PmmOk p) {tables : List (List ℕ)} {va : ℕ} {rest : List ℕ}
    (hmiss : 0 < missingTables tables va) :
    nextFrame p + 1 ∉ pageFrames p tables (va :: rest) := by
  intro hmem
  rcases List.mem_cons.mp hmem with hself | hrest
  · omega
  · have hok := (pmmAfter_spec h (1 + missingTables tables va)).1
    obtain hzero | ⟨hlt, hfree⟩ := not_marked_of_mem_pageFrames hok hrest
    · omega
    · rw [totalFrames_pmmAfter] at hlt
      rw [Nat.add_comm 1] at hfree
      exact hfree (marked_pmmAfter h _ hlt (by omega))

end FirstFit

/-- The page table of the script scratch is not there when the image is mapped. -/
theorem missingTables_script (p : Pmm) {n : ℕ} (hn : n ≤ 2 ^ 18) :
    0 < missingTables (afterPages p [] (pagesFrom userImageBase n)).2 userScriptBase := by
  have hmiss : known (afterPages p [] (pagesFrom userImageBase n)).2 (tablePath userScriptBase) ≠
      true := by
    intro hknown
    obtain ⟨q, hq, hsuffix⟩ := List.any_eq_true.mp hknown
    rcases (mem_afterPages _ _ _ _).mp hq with hnil | ⟨va, hva, rfl⟩
    · exact absurd hnil List.not_mem_nil
    · obtain ⟨j, hj, rfl⟩ := List.mem_map.mp hva
      have heq : tablePath userScriptBase = tablePath (userImageBase + j * 4096) :=
        (List.isSuffixOf_iff_suffix.mp hsuffix).eq_of_length rfl
      have hpdpti : pdpti userScriptBase = pdpti (userImageBase + j * 4096) :=
        (List.cons.inj (List.cons.inj heq).2).1
      have hlt := List.mem_range.mp hj
      rw [pdpti, pdpti, userScriptBase, userImageBase] at hpdpti
      omega
  unfold missingTables
  rw [if_neg hmiss]
  omega

/-! ### Translations -/

/-- The translation of a mapped page is its frame. -/
theorem Loaded.vmmTranslate_eq {mem₀ : ℕ → Page} {m : Machine} {c : ℕ} {tables : List (List ℕ)}
    {pages : ℕ → Option (ℕ × Page)} (h : Loaded mem₀ m c tables pages) {pg f : ℕ} {page : Page}
    (hpage : pages pg = some (f, page)) :
    vmmTranslate m.mem (c * frameSize) (pg * 4096) = f * frameSize := by
  obtain ⟨huser, hsmall, -⟩ := h.held _ _ _ hpage
  rw [Mm.vmmTranslate_eq, leafOf_eq, h.leaf _ huser, Nat.mul_div_cancel _ (by decide : 0 < 4096),
    hpage, Option.map_some, Option.map_some, Option.getD_some, pteAddr_leafEntry, frameSize]
  · omega
  · rw [frameSize]
    omega

theorem map_pagesFrom {β : Type*} {base n : ℕ} {l : List β} (hlen : l.length = n) (t : ℕ → β)
    (d : β) (h : ∀ j < n, t (base + j * 4096) = l.getD j d) : (pagesFrom base n).map t = l := by
  unfold pagesFrom
  refine List.ext_getElem (by simp [hlen]) fun j hj hj' ↦ ?_
  rw [List.getElem_map, List.getElem_map, List.getElem_range, h j (by omega),
    ← List.getElem_eq_getD]

/-- The addresses of the pages are all different. -/
theorem nodup_spawnVas {n : ℕ} (hn : n ≤ 2 ^ 18) : (spawnVas n).Nodup := by
  have hrow : ∀ base count, (pagesFrom base count).Nodup := fun base count ↦
    List.Nodup.map (fun j j' heq ↦ by
      have hmul : base + j * 4096 = base + j' * 4096 := heq
      omega) List.nodup_range
  have hmem : ∀ {base count va : ℕ}, va ∈ pagesFrom base count →
      base ≤ va ∧ va < base + count * 4096 := fun hva ↦ by
    obtain ⟨j, hj, rfl⟩ := List.mem_map.mp hva
    have hlt := List.mem_range.mp hj
    constructor <;> omega
  have hbases : userScriptBase = userImageBase + 0xC0000000 ∧
      userStackBase = userImageBase + 0xF0000000 := by decide
  obtain ⟨hscriptBase, hstackBase⟩ := hbases
  rw [spawnVas, List.nodup_append, List.nodup_append]
  refine ⟨⟨hrow _ _, hrow _ _, fun va hva va' hva' ↦ ?_⟩, hrow _ _, fun va hva va' hva' ↦ ?_⟩
  · have himage := hmem hva
    have hscript := hmem hva'
    omega
  · have hstack := hmem hva'
    rcases List.mem_append.mp hva with himage | hscript
    · have himage := hmem himage
      omega
    · have hscript := hmem hscript
      omega

section Mapped

variable {mem₀ : ℕ → Page} {m : Machine} {c : ℕ} {tables : List (List ℕ)} {blob : List Page}
  {code : List Byte} {imageFs scriptFs stackFs : List ℕ} {pages : ℕ → Option (ℕ × Page)}

/-- Every address of the three areas is that of a page. -/
theorem SpawnMapped.page_of_mem (h : SpawnMapped mem₀ blob code imageFs scriptFs stackFs pages)
    {va : ℕ} (hva : va ∈ spawnVas blob.length) :
    ∃ pg f page, va = pg * 4096 ∧ pages pg = some (f, page) := by
  have hrow : ∀ {base count : ℕ}, base % 4096 = 0 → va ∈ pagesFrom base count →
      ∃ j < count, va = (base / 4096 + j) * 4096 := fun hbase hin ↦ by
    obtain ⟨j, hj, rfl⟩ := List.mem_map.mp hin
    exact ⟨j, List.mem_range.mp hj, by omega⟩
  rw [spawnVas, List.mem_append, List.mem_append] at hva
  obtain (hin | hin) | hin := hva
  · obtain ⟨j, hj, heq⟩ := hrow (by decide) hin
    exact ⟨_, _, _, heq, h.image j hj⟩
  · obtain ⟨j, hj, heq⟩ := hrow (by decide) hin
    rcases Nat.eq_zero_or_pos j with rfl | hpos
    · obtain ⟨page, hpage, -⟩ := h.script
      exact ⟨_, _, page, heq, hpage⟩
    · exact ⟨_, _, _, heq, h.scratch j hpos hj⟩
  · obtain ⟨j, hj, heq⟩ := hrow (by decide) hin
    exact ⟨_, _, _, heq, h.stack j hj⟩

/-- The pages of the three areas are translated to their frames. -/
theorem SpawnMapped.map_vmmTranslate (hloaded : Loaded mem₀ m c tables pages)
    (h : SpawnMapped mem₀ blob code imageFs scriptFs stackFs pages)
    (himage : imageFs.length = blob.length) (hscript : scriptFs.length = 8)
    (hstack : stackFs.length = 16) :
    (spawnVas blob.length).map (vmmTranslate m.mem (c * frameSize)) =
      imageFs.map (· * frameSize) ++ scriptFs.map (· * frameSize) ++
        stackFs.map (· * frameSize) := by
  have hpage : ∀ {base j f : ℕ} {page : Page}, base % 4096 = 0 →
      pages (base / 4096 + j) = some (f, page) →
      vmmTranslate m.mem (c * frameSize) (base + j * 4096) = f * frameSize := fun hbase hpg ↦ by
    rw [← hloaded.vmmTranslate_eq hpg]
    exact congrArg _ (by omega)
  have hgetD : ∀ (l : List ℕ) (j : ℕ), (l.map (· * frameSize)).getD j 0 = l.getD j 0 * frameSize :=
    fun l _ ↦ List.getD_map l 0 (· * frameSize)
  rw [spawnVas, List.map_append, List.map_append,
    map_pagesFrom (l := imageFs.map (· * frameSize)) (by rw [List.length_map, himage]) _ 0 ?_,
    map_pagesFrom (l := scriptFs.map (· * frameSize)) (by rw [List.length_map, hscript]) _ 0 ?_,
    map_pagesFrom (l := stackFs.map (· * frameSize)) (by rw [List.length_map, hstack]) _ 0 ?_]
  · intro j hj
    rw [hgetD]
    exact hpage (by decide) (h.stack j hj)
  · intro j hj
    rw [hgetD]
    rcases Nat.eq_zero_or_pos j with rfl | hpos
    · obtain ⟨page, hfirst, -⟩ := h.script
      exact hpage (by decide) hfirst
    · exact hpage (by decide) (h.scratch j hpos hj)
  · intro j hj
    rw [hgetD]
    exact hpage (by decide) (h.image j hj)

/-- No two pages of the three areas have one frame. -/
theorem SpawnMapped.nodup (hloaded : Loaded mem₀ m c tables pages)
    (h : SpawnMapped mem₀ blob code imageFs scriptFs stackFs pages) (hblob : blob.length ≤ 2 ^ 18) :
    ((spawnVas blob.length).map (vmmTranslate m.mem (c * frameSize))).Nodup := by
  refine List.Nodup.map_on (fun va hva va' hva' heq ↦ ?_) (nodup_spawnVas hblob)
  obtain ⟨pg, f, page, rfl, hpage⟩ := h.page_of_mem hva
  obtain ⟨pg', f', page', rfl, hpage'⟩ := h.page_of_mem hva'
  rw [hloaded.vmmTranslate_eq hpage, hloaded.vmmTranslate_eq hpage'] at heq
  obtain rfl : f = f' := Nat.eq_of_mul_eq_mul_right (by decide : 0 < frameSize) heq
  rw [hloaded.page_inj hpage hpage']

end Mapped

/-! ### The steps of a spawn -/

/-- The addresses of the frames `sched_spawn` maps for the image, the script scratch and the
stack. -/
structure SpawnedFrames where
  image : List ℕ
  script : List ℕ
  stack : List ℕ

/-- The copy of the script, with its terminator, to a physical address. -/
def scriptCopy (scratch : ℕ) (code : List Byte) (m : Machine) : Machine :=
  pokeBytes m scratch (code.take 32768 ++ [0])

/-- The three loops of `sched_spawn`, with the copy before the third: the frames they take. -/
def spawnedFrames (k : Kernel) (code : List Byte) (need : ℕ) : Option SpawnedFrames :=
  let cr3 := (vmmNewAddressSpace k.machine k.bootPml4).1
  match mapPages (spawnStart k need) cr3 userImageBase (k.blob.map some) with
  | .error _ => none
  | .ok (image, m) =>
    match mapPages m cr3 userScriptBase (List.replicate 8 none) with
    | .error _ => none
    | .ok (script, m) =>
      match mapPages (scriptCopy (script.headD 0) code m) cr3 userStackBase
        (List.replicate 16 none) with
      | .error _ => none
      | .ok (stack, _) => some ⟨image, script, stack⟩

/-- The new task in slot `i` reads the script with its terminator through its page tables; every page
is translated to the frame that was taken for it, and to no other's; and the copy changes no frame
but those of the scratch, whatever memory holds. -/
structure Delivers (k : Kernel) (code : List Byte) (need i : ℕ) (r : SpawnedFrames) : Prop where
  reads : ∀ j ≤ code.length, userLoad (schedSpawn k code need).2 i (userScriptBase + j) =
    some ((code ++ [0]).getD j 0)
  mapped : (spawnVas k.blob.length).map (vmmTranslate (schedSpawn k code need).2.machine.mem
    ((schedSpawn k code need).2.tasks i).cr3) = r.image ++ r.script ++ r.stack
  own : (r.image ++ r.script ++ r.stack).Nodup
  copy : ∀ m g, g * frameSize ∉ r.script →
    (scriptCopy (r.script.headD 0) code m).mem g = m.mem g

/-- `sched_spawn` delivers the script. -/
def DeliversScript (k : Kernel) (code : List Byte) (need : ℕ) : Prop :=
  ∃ i r, freeTask k = some i ∧ spawnedFrames k code need = some r ∧ Delivers k code need i r

section Copy

variable {code : List Byte} {scratch : ℕ}

theorem length_copied (hlen : code.length ≤ 32767) :
    (code.take 32768 ++ [0]).length = code.length + 1 := by
  rw [List.length_append, List.length_singleton, List.length_take, Nat.min_eq_right (by omega)]

/-- The copy of a script that fits one page changes one frame. -/
theorem scriptCopy_mem (hcode : code.length ≤ 4095) (f : ℕ) (m : Machine) {g : ℕ} (hg : g ≠ f) :
    (scriptCopy (f * frameSize) code m).mem g = m.mem g := by
  refine (MemInv.pokeBytes_within m (f * frameSize) _ ?_).2 g ?_
  · rw [length_copied (by omega), Nat.mul_mod_left, Nat.zero_add, frameSize]
    omega
  · rwa [Nat.mul_div_cancel _ (by decide : 0 < frameSize)]

/-- The copy of a longer script changes the frame behind the first one. -/
theorem exists_scriptCopy_ne (hlen : code.length ≤ 32767) (hlong : 4096 ≤ code.length) (f : ℕ) :
    ∃ m, (scriptCopy (f * frameSize) code m).mem (f + 1) ≠ m.mem (f + 1) := by
  set b := (code.take 32768 ++ [0]).getD 4096 0 with hb
  -- a memory in which the byte that is written was another one
  let m : Machine := ⟨fun _ _ ↦ (~~~b).setWidth 64, ⟨[], 0, 0⟩⟩
  refine ⟨m, fun hsame ↦ ?_⟩
  have hbyte := pageByte_pokeBytes m (f * frameSize) (code.take 32768 ++ [0]) (f + 1)
    (by decide : 0 < frameSize)
  rw [length_copied hlen, if_pos (by rw [frameSize]; omega),
    show (f + 1) * frameSize + 0 - f * frameSize = 4096 by rw [frameSize]; omega, ← hb] at hbyte
  have hold : pageByte (m.mem (f + 1)) 0 = ~~~b := by
    change ((~~~b).setWidth 64 >>> 0).setWidth 8 = ~~~b
    simp
  rw [scriptCopy] at hsame
  rw [hsame, hold] at hbyte
  revert hbyte
  generalize b = b'
  revert b'
  decide

end Copy

section Spawn

variable {k : Kernel} {code : List Byte} {need : ℕ}

/-- A `sched_spawn` that returns a process number has gone through its three loops. -/
theorem spawnedFrames_of_loadImage {c : ℕ} {m' : Machine}
    (hspace : (vmmNewAddressSpace k.machine k.bootPml4).1 = c * frameSize)
    (hload : loadImage (spawnStart k need) (c * frameSize) k.blob code = .ok m') :
    ∃ fs₁ m₁ fs₂ m₂ fs₃,
      mapPages (spawnStart k need) (c * frameSize) userImageBase (k.blob.map some) = .ok (fs₁, m₁) ∧
      mapPages m₁ (c * frameSize) userScriptBase (List.replicate 8 none) = .ok (fs₂, m₂) ∧
      mapPages (pokeBytes m₂ (fs₂.headD 0) (code.take 32768 ++ [0])) (c * frameSize) userStackBase
        (List.replicate 16 none) = .ok (fs₃, m') ∧
      spawnedFrames k code need = some ⟨fs₁, fs₂, fs₃⟩ := by
  obtain ⟨fs₁, m₁, fs₂, m₂, fs₃, himage, hscript, hstack⟩ := Loaded.loadImage_eq_ok hload
  refine ⟨fs₁, m₁, fs₂, m₂, fs₃, himage, hscript, hstack, ?_⟩
  rw [spawnedFrames]
  simp only [hspace, himage, hscript, scriptCopy, hstack]

/-- What the copy of a long script changes is no frame of the scratch. -/
theorem not_delivers_of_long (hpmm : PmmOk k.machine.pmm) (hlen : code.length ≤ 32767)
    (hok : (schedSpawn k code need).1 ≠ -1) (hlong : 4096 ≤ code.length) :
    ¬ DeliversScript k code need := by
  rintro ⟨i, r, hslot, hr, hdelivers⟩
  obtain ⟨c, hspace, h, -, hload, -⟩ := schedSpawn_loads hpmm hok hslot
  obtain ⟨fs₁, m₁, fs₂, m₂, fs₃, himage, hscript, hstack, hframes⟩ :=
    spawnedFrames_of_loadImage hspace hload
  obtain rfl : r = ⟨fs₁, fs₂, fs₃⟩ := Option.some.inj (hr.symm.trans hframes)
  obtain ⟨imageFs, scriptFs, tables, pages, -, hfs₂, -, hscriptFs, -, hpmm₁, -⟩ :=
    h.imageAndScratch k.blob_fits himage hscript (Loaded.pokeBytes_pmm _ _ _) hstack
  rw [Loaded.pagesFrom_succ] at hscriptFs
  have hhead : fs₂.headD 0 = nextFrame m₁.pmm * frameSize := by
    rw [hfs₂, hscriptFs]
    rfl
  obtain ⟨m, hne⟩ := exists_scriptCopy_ne hlen hlong (nextFrame m₁.pmm)
  refine hne ?_
  have hcopy := hdelivers.copy m (nextFrame m₁.pmm + 1)
  rw [hhead] at hcopy
  refine hcopy fun hmem ↦ ?_
  obtain ⟨f, hf, heq⟩ := List.mem_map.mp (hfs₂ ▸ hmem)
  obtain rfl : f = nextFrame m₁.pmm + 1 := Nat.eq_of_mul_eq_mul_right (by decide : 0 < frameSize) heq
  exact succ_not_mem_pageFrames hpmm₁ (missingTables_script _ k.blob_fits) (hscriptFs ▸ hf)

/-- A `sched_spawn` that returns a process number delivers the script if and only if the script has
at most 4095 bytes. -/
theorem spawn_delivers_iff (hpmm : PmmOk k.machine.pmm) (hlen : code.length ≤ 32767)
    (hok : (schedSpawn k code need).1 ≠ -1) :
    DeliversScript k code need ↔ code.length ≤ 4095 := by
  constructor
  · intro hdelivers
    by_contra hlong
    exact not_delivers_of_long hpmm hlen hok (by omega) hdelivers
  intro hcode
  obtain ⟨i, hslot⟩ : ∃ i, freeTask k = some i := by
    rcases hslot : freeTask k with - | i
    · rw [schedSpawn_full hslot] at hok
      exact absurd rfl hok
    · exact ⟨i, rfl⟩
  obtain ⟨c, hspace, h, -, hload, hcr3⟩ := schedSpawn_loads hpmm hok hslot
  obtain ⟨fs₁, m₁, fs₂, m₂, fs₃, himage, hscript, hstack, hframes⟩ :=
    spawnedFrames_of_loadImage hspace hload
  obtain ⟨imageFs, scriptFs, stackFs, tables, pages, rfl, rfl, rfl, hlenImage, hlenScript, hlenStack,
    -, hdone, hmapped⟩ := h.spawnMapped k.blob_fits hcode himage hscript hstack
  have hmap := hmapped.map_vmmTranslate hdone hlenImage hlenScript hlenStack
  refine ⟨i, _, hslot, hframes, ⟨fun j hj ↦ ?_, ?_, ?_, fun m g hg ↦ ?_⟩⟩
  · have hva : IsUserVa (userScriptBase + j) := by
      rw [IsUserVa, userScriptBase]
      omega
    have hblob := k.blob_fits
    have hbase : userScriptBase = userImageBase + 0xC0000000 := rfl
    rw [userLoad_schedSpawn hpmm hcode hok hslot hva, spawnByte, if_neg (by omega),
      if_pos (by omega), Nat.add_sub_cancel_left, if_pos hj]
  · rw [hcr3]
    exact hmap
  · rw [← hmap]
    exact hmapped.nodup hdone k.blob_fits
  · obtain ⟨f, rest, rfl⟩ : ∃ f rest, scriptFs = f :: rest :=
      List.exists_cons_of_length_pos (by omega)
    refine scriptCopy_mem hcode f m fun hgf ↦ hg ?_
    rw [hgf]
    exact List.mem_cons_self

end Spawn

/-- A script of one byte on a machine of 72 frames. -/
theorem spawn_delivers_iff_leakKernel :
    DeliversScript (leakKernel 0) [0x61] 0 ↔ [(0x61 : Byte)].length ≤ 4095 :=
  spawn_delivers_iff (leakKernel_pmmOk 0) (by decide) leakKernel_spawns.1

/-- A script of 4096 bytes: its terminator falls into the page directory behind the first frame of
the scratch, and the new process finds no page at the address of its script. -/
theorem long_script_not_delivered :
    (schedSpawn (leakKernel 0) (List.replicate 4096 0x61) 0).1 = 1 ∧
      userLoad (schedSpawn (leakKernel 0) (List.replicate 4096 0x61) 0).2 1 userScriptBase = none ∧
      ¬ DeliversScript (leakKernel 0) (List.replicate 4096 0x61) 0 := by
  have hrun : (schedSpawn (leakKernel 0) (List.replicate 4096 0x61) 0).1 = 1 ∧
      userLoad (schedSpawn (leakKernel 0) (List.replicate 4096 0x61) 0).2 1 userScriptBase =
        none := by decide +kernel
  refine ⟨hrun.1, hrun.2, not_delivers_of_long (leakKernel_pmmOk 0) ?_ ?_ ?_⟩
  · rw [List.length_replicate]
    decide
  · rw [hrun.1]
    decide
  · rw [List.length_replicate]

end NoOsKernel.Mm
