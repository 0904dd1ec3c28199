import Mathlib.Data.List.GetD
import NoOsKernel.Mm.Loading
import NoOsKernel.Mm.Puts

/-!
# What a new process can read

The bytes `sched_spawn` leaves readable for the new process. Every image page is a page of the
kernel image, so the last one ends with what lies behind the runtime; of the script scratch only the
script and its terminator are written, and of the stack nothing. The rest is what the frames have
held before: two states of the kernel that agree on all that is public give the process the same
bytes exactly when they agree on this residue too.
-/

set_option autoImplicit false
set_option relaxedAutoImplicit false

namespace NoOsKernel.Mm

open Lib Lib.Radix

/-! ### Bytes of a page -/

/-- A byte of a page. -/
def pageByte (page : Page) (off : ℕ) : Byte := byteOf (page (off / 8)) (off % 8)

theorem byteOf_setByte (w : Word) {j j' : ℕ} (hj : j < 8) (hj' : j' < 8) (b : Byte) :
    byteOf (setByte w j b) j' = if j' = j then b else byteOf w j' := by
  apply BitVec.eq_of_getLsbD_eq
  intro i hi
  have hones : ∀ l, (0xFF#64).getLsbD l = decide (l < 8) := by
    intro l
    rw [BitVec.getLsbD_ofNat, show 0xFF = 2 ^ 8 - 1 from rfl, Nat.testBit_two_pow_sub_one]
    by_cases hl : l < 8
    · simp [hl, show l < 64 by omega]
    · simp [hl]
  rw [byteOf, setByte, BitVec.getLsbD_setWidth, BitVec.getLsbD_ushiftRight, BitVec.getLsbD_or,
    BitVec.getLsbD_and, BitVec.getLsbD_not, BitVec.getLsbD_shiftLeft, BitVec.getLsbD_shiftLeft,
    hones, BitVec.getLsbD_setWidth]
  by_cases hsame : j' = j
  · rw [if_pos hsame, hsame, show 8 * j + i - 8 * j = i by omega]
    simp [hi, show 8 * j + i < 64 by omega, show i < 64 by omega]
  · rw [if_neg hsame, byteOf, BitVec.getLsbD_setWidth, BitVec.getLsbD_ushiftRight]
    rcases Nat.lt_or_gt_of_ne hsame with hlt | hgt
    · simp [hi, show 8 * j' + i < 8 * j by omega, show 8 * j' + i < 64 by omega]
    · simp [hi, show ¬ 8 * j' + i < 8 * j by omega, show 8 * j' + i < 64 by omega,
        show ¬ 8 * j' + i - 8 * j < 8 by omega,
        BitVec.getLsbD_of_ge b (8 * j' + i - 8 * j) (by omega)]

/-- Storing a byte. -/
theorem pageByte_pokeByte (m : Machine) (addr : ℕ) (b : Byte) (g : ℕ) {off : ℕ}
    (hoff : off < frameSize) : pageByte ((pokeByte m addr b).mem g) off =
      if g * frameSize + off = addr then b else pageByte (m.mem g) off := by
  rw [frameSize] at hoff ⊢
  rw [pageByte, pageByte, pokeByte, word, Machine.setWord, frameSize]
  by_cases hword : g = addr / 4096 ∧ off / 8 = addr % 4096 / 8
  · obtain ⟨rfl, hidx⟩ := hword
    simp only [hidx, and_self, if_true]
    rw [byteOf_setByte _ (Nat.mod_lt _ (by decide)) (Nat.mod_lt _ (by decide))]
    by_cases hsame : off % 8 = addr % 8
    · rw [if_pos hsame, if_pos (by omega)]
    · rw [if_neg hsame, if_neg (by omega)]
  · simp only [hword, if_false]
    rw [if_neg fun hsame ↦ hword ⟨by omega, by omega⟩]

/-- Storing consecutive bytes, which may run into the following frames. -/
theorem pageByte_pokeBytes (m : Machine) (addr : ℕ) (bytes : List Byte) (g : ℕ) {off : ℕ}
    (hoff : off < frameSize) : pageByte ((pokeBytes m addr bytes).mem g) off =
      if addr ≤ g * frameSize + off ∧ g * frameSize + off < addr + bytes.length then
        bytes.getD (g * frameSize + off - addr) 0
      else pageByte (m.mem g) off := by
  induction bytes generalizing m addr with
  | nil =>
    rw [if_neg (by rw [List.length_nil]; omega)]
    rfl
  | cons b rest ih =>
    rw [pokeBytes, ih, pageByte_pokeByte m addr b g hoff, List.length_cons]
    by_cases hstart : g * frameSize + off = addr
    · rw [if_neg (by omega), if_pos hstart, if_pos (by omega), hstart, Nat.sub_self,
        List.getD_cons_zero]
    · rw [if_neg hstart]
      by_cases hin : addr + 1 ≤ g * frameSize + off ∧
          g * frameSize + off < addr + 1 + rest.length
      · obtain ⟨j, hj⟩ : ∃ j, g * frameSize + off = addr + 1 + j :=
          ⟨g * frameSize + off - (addr + 1), by omega⟩
        rw [if_pos hin, if_pos (by omega), hj, Nat.add_sub_cancel_left,
          show addr + 1 + j - addr = j + 1 by omega, List.getD_cons_succ]
      · rw [if_neg hin, if_neg (by omega)]

/-! ### A new process -/

/-- A load of a user task: the processor lets it through where the entry allows it. -/
def userLoad (k : Kernel) (i va : ℕ) : Option Byte :=
  match leafOf k.machine.mem (k.tasks i).cr3 va with
  | none => none
  | some e =>
    if IsUserVa va ∧ userBit e = true then
      some (pageByte (k.machine.mem (pteAddr e / frameSize)) (va % 4096))
    else none

/-- A load in a page whose leaf has the user bit reads the frame of the leaf. -/
theorem userLoad_of_leaf {k : Kernel} {i va f : ℕ} {flags : BitVec 8} (hva : IsUserVa va)
    (hf : f < 2 ^ 18) (huser : flags.getLsbD 2 = true)
    (hleaf : leafOf k.machine.mem (k.tasks i).cr3 va = some (leafEntry (f * frameSize) flags)) :
    userLoad k i va = some (pageByte (k.machine.mem f) (va % 4096)) := by
  have hlt : f * frameSize < 2 ^ 64 := by
    rw [frameSize]
    omega
  have hbit : userBit (leafEntry (f * frameSize) flags) = true := by
    rw [leafEntry, userBit, BitVec.getLsbD_or, BitVec.getLsbD_setWidth, BitVec.getLsbD_or]
    simp [huser]
  have haddr : pteAddr (leafEntry (f * frameSize) flags) / frameSize = f := by
    rw [pteAddr_leafEntry hlt, frameSize]
    omega
  rw [userLoad, hleaf]
  simp only
  rw [if_pos ⟨hva, hbit⟩, haddr]

/-- The pages `sched_spawn` maps, in its order: the image, the script scratch and the stack. -/
def spawnVas (imagePages : ℕ) : List ℕ :=
  pagesFrom userImageBase imagePages ++ pagesFrom userScriptBase 8 ++ pagesFrom userStackBase 16

/-- The frames the allocator gives to these pages, after those of the top table and the kernel
stack. -/
def spawnFrames (k : Kernel) (need : ℕ) : List ℕ :=
  pageFrames (kmalloc (pmmAllocFrame k.machine.pmm).2 need).2 [] (spawnVas k.blob.length)

/-- A byte of the frames of the script scratch and the stack, as they were. -/
def staleByte (mem : ℕ → Page) (frames : List ℕ) (off : ℕ) : Byte :=
  pageByte (mem (frames.getD (off / 4096) 0)) (off % 4096)

/-- A byte of the image. -/
def imageByte (blob : List Page) (off : ℕ) : Byte :=
  pageByte (blob.getD (off / 4096) fun _ ↦ 0) (off % 4096)

/-- The pages of a new process, when the frames of its script scratch and its stack are `frames`. -/
structure SpawnPages (mem : ℕ → Page) (frames : List ℕ) (blob : List Page) (code : List Byte)
    (pages : ℕ → Option (ℕ × Page)) : Prop where
  image : ∀ j < blob.length, ∃ f,
    pages (userImageBase / 4096 + j) = some (f, blob.getD j fun _ ↦ 0)
  script : ∃ f page, pages (userScriptBase / 4096) = some (f, page) ∧ ∀ off < 4096,
    pageByte page off = if off ≤ code.length then (code ++ [0]).getD off 0
      else staleByte mem frames off
  scratch : ∀ j, 0 < j → j < 8 → ∃ f,
    pages (userScriptBase / 4096 + j) = some (f, mem (frames.getD j 0))
  stack : ∀ j < 16, ∃ f,
    pages (userStackBase / 4096 + j) = some (f, mem (frames.getD (8 + j) 0))
  others : ∀ pg, ¬ (userImageBase / 4096 ≤ pg ∧ pg < userImageBase / 4096 + blob.length) →
    ¬ (userScriptBase / 4096 ≤ pg ∧ pg < userScriptBase / 4096 + 8) →
    ¬ (userStackBase / 4096 ≤ pg ∧ pg < userStackBase / 4096 + 16) → pages pg = none

/-- The pages of a new process, with their frames. The first page of the scratch holds the
script. -/
structure SpawnMapped (mem₀ : ℕ → Page) (blob : List Page) (code : List Byte)
    (imageFs scriptFs stackFs : List ℕ) (pages : ℕ → Option (ℕ × Page)) : Prop where
  image : ∀ j < blob.length, pages (userImageBase / 4096 + j) =
    some (imageFs.getD j 0, blob.getD j fun _ ↦ 0)
  script : ∃ page, pages (userScriptBase / 4096) = some (scriptFs.getD 0 0, page) ∧ ∀ off < 4096,
    pageByte page off = if off ≤ code.length then (code ++ [0]).getD off 0
      else pageByte (mem₀ (scriptFs.getD 0 0)) off
  scratch : ∀ j, 0 < j → j < 8 → pages (userScriptBase / 4096 + j) =
    some (scriptFs.getD j 0, mem₀ (scriptFs.getD j 0))
  stack : ∀ j < 16, pages (userStackBase / 4096 + j) =
    some (stackFs.getD j 0, mem₀ (stackFs.getD j 0))
  others : ∀ pg, ¬ (userImageBase / 4096 ≤ pg ∧ pg < userImageBase / 4096 + blob.length) →
    ¬ (userScriptBase / 4096 ≤ pg ∧ pg < userScriptBase / 4096 + 8) →
    ¬ (userStackBase / 4096 ≤ pg ∧ pg < userStackBase / 4096 + 16) → pages pg = none

/-- What is at an address of a new process, when the frames of its script scratch and its stack are
`frames`. -/
def spawnByte (mem : ℕ → Page) (frames : List ℕ) (blob : List Page) (code : List Byte) (va : ℕ) :
    Option Byte :=
  if userImageBase ≤ va ∧ va < userImageBase + blob.length * 4096 then
    some (imageByte blob (va - userImageBase))
  else if userScriptBase ≤ va ∧ va < userScriptBase + 8 * 4096 then
    some (if va - userScriptBase ≤ code.length then (code ++ [0]).getD (va - userScriptBase) 0
      else staleByte mem frames (va - userScriptBase))
  else if userStackBase ≤ va ∧ va < userStackBase + 16 * 4096 then
    some (staleByte mem frames (8 * 4096 + (va - userStackBase)))
  else none

namespace Loaded

variable {mem₀ : ℕ → Page} {m m' : Machine} {c : ℕ} {tables : List (List ℕ)}
  {pages : ℕ → Option (ℕ × Page)}

/-- A user load reads the page of its address. -/
theorem userLoad_eq {k : Kernel} (h : Loaded mem₀ k.machine c tables pages) {i : ℕ}
    (hcr3 : (k.tasks i).cr3 = c * frameSize) {va : ℕ} (hva : IsUserVa va) :
    userLoad k i va = (pages (va / 4096)).map fun fp ↦ pageByte fp.2 (va % 4096) := by
  have hleaf := h.leaf va hva
  rw [← leafOf_eq, ← hcr3] at hleaf
  rcases hpage : pages (va / 4096) with - | ⟨f, page⟩
  · rw [userLoad, hleaf, hpage]
    rfl
  · obtain ⟨-, hsmall, hmem⟩ := h.held _ _ _ hpage
    rw [hpage, Option.map_some] at hleaf
    rw [userLoad_of_leaf hva hsmall (by decide) hleaf, hmem, Option.map_some]

/-- The last page of the stack needs no table of its own. -/
theorem known_stack (p : Pmm) (tables : List (List ℕ)) {init : List ℕ} {last : ℕ}
    (hsplit : pagesFrom userStackBase 16 = init ++ [last]) :
    known (afterPages p tables init).2 (tablePath last) = true := by
  have hpages : pagesFrom userStackBase 16 =
      pagesFrom userStackBase 15 ++ [userStackBase + 15 * 4096] := by
    rw [pagesFrom, List.range_succ, List.map_append, List.map_singleton, pagesFrom]
  obtain ⟨rfl, hlast⟩ := List.append_inj' (hsplit.symm.trans hpages) rfl
  rw [← (List.cons.inj hlast.symm).1]
  refine known_of_mem ((mem_afterPages _ _ _ _).mpr (Or.inr ⟨userStackBase, ?_, rfl⟩))
  exact List.mem_map.mpr ⟨0, by decide, rfl⟩

theorem pokeBytes_pmm (m : Machine) (addr : ℕ) (bytes : List Byte) :
    (pokeBytes m addr bytes).pmm = m.pmm := by
  induction bytes generalizing m addr with
  | nil => rfl
  | cons b rest ih => rw [pokeBytes, ih, pokeByte, Machine.setWord_pmm]

theorem getD_replicate_none (n j : ℕ) :
    (List.replicate n (none : Option Page)).getD j none = none := by
  rw [List.getD_eq_getElem?_getD, List.getElem?_replicate]
  split_ifs <;> rfl

/-- An image that is loaded: the three areas have been mapped. -/
theorem loadImage_eq_ok {cr3 : ℕ} {blob : List Page} {code : List Byte}
    (hok : Mm.loadImage m cr3 blob code = .ok m') :
    ∃ fs₁ m₁ fs₂ m₂ fs₃, Mm.mapPages m cr3 userImageBase (blob.map some) = .ok (fs₁, m₁) ∧
      Mm.mapPages m₁ cr3 userScriptBase (List.replicate 8 none) = .ok (fs₂, m₂) ∧
      Mm.mapPages (pokeBytes m₂ (fs₂.headD 0) (code.take 32768 ++ [0])) cr3 userStackBase
        (List.replicate 16 none) = .ok (fs₃, m') := by
  rw [Mm.loadImage] at hok
  rcases himage : Mm.mapPages m cr3 userImageBase (blob.map some) with e | ⟨fs₁, m₁⟩
  · rw [himage] at hok
    cases hok
  rw [himage] at hok
  simp only at hok
  rcases hscript : Mm.mapPages m₁ cr3 userScriptBase (List.replicate 8 none) with e | ⟨fs₂, m₂⟩
  · rw [hscript] at hok
    cases hok
  rw [hscript] at hok
  simp only at hok
  rcases hstack : Mm.mapPages (pokeBytes m₂ (fs₂.headD 0) (code.take 32768 ++ [0])) cr3
    userStackBase (List.replicate 16 none) with e | ⟨fs₃, m₃⟩
  · rw [hstack] at hok
    cases hok
  rw [hstack] at hok
  obtain rfl := Except.ok.inj hok
  exact ⟨fs₁, m₁, fs₂, m₂, fs₃, rfl, hscript, hstack⟩

/-- The image and the script scratch are mapped, as long as there is a frame left for the stack: the
frames are those of `pageFrames`, and the pages of the scratch hold what their frames have held. -/
theorem imageAndScratch (h : Loaded mem₀ m c [] fun _ ↦ none) {blob : List Page}
    (hblob : blob.length ≤ 2 ^ 18) {fs₁ fs₂ fs₃ : List ℕ} {m₁ m₂ m₂' m₃ : Machine}
    (himage : Mm.mapPages m (c * frameSize) userImageBase (blob.map some) = .ok (fs₁, m₁))
    (hscript : Mm.mapPages m₁ (c * frameSize) userScriptBase (List.replicate 8 none) =
      .ok (fs₂, m₂))
    (hpmm : m₂'.pmm = m₂.pmm)
    (hstack : Mm.mapPages m₂' (c * frameSize) userStackBase (List.replicate 16 none) =
      .ok (fs₃, m₃)) :
    ∃ imageFs scriptFs tables pages,
      fs₁ = imageFs.map (· * frameSize) ∧ fs₂ = scriptFs.map (· * frameSize) ∧
      imageFs = pageFrames m.pmm [] (pagesFrom userImageBase blob.length) ∧
      scriptFs = pageFrames m₁.pmm
        (afterPages m.pmm [] (pagesFrom userImageBase blob.length)).2
        (pagesFrom userScriptBase 8) ∧
      pageFrames m.pmm [] (spawnVas blob.length) =
        imageFs ++ scriptFs ++ pageFrames m₂.pmm tables (pagesFrom userStackBase 16) ∧
      PmmOk m₁.pmm ∧ Loaded mem₀ m₂ c tables pages ∧
      ∀ pg, pages pg =
        if userScriptBase / 4096 ≤ pg ∧ pg < userScriptBase / 4096 + 8 then
          some (scriptFs.getD (pg - userScriptBase / 4096) 0,
            mem₀ (scriptFs.getD (pg - userScriptBase / 4096) 0))
        else if userImageBase / 4096 ≤ pg ∧ pg < userImageBase / 4096 + blob.length then
          some (imageFs.getD (pg - userImageBase / 4096) 0,
            blob.getD (pg - userImageBase / 4096) fun _ ↦ 0)
        else none := by
  -- the image
  obtain ⟨hfs₁, ⟨hfull, -⟩ | ⟨pages₁, h₁, hpmm₁, hpages₁⟩⟩ :=
    h.mapPages (blob.map some) (le_refl _) (by
      rw [List.length_map, userImageBase, userModelBase]
      omega) himage
  · exact absurd hscript (mapPages_noFrame hfull (by decide) _ _)
  rw [List.length_map] at hfs₁ h₁ hpmm₁ hpages₁
  -- the script scratch
  obtain ⟨hfs₂, ⟨hfull, -⟩ | ⟨pages₂, h₂, hpmm₂, hpages₂⟩⟩ := h₁.mapPages (List.replicate 8 none)
    (by decide) (by decide) hscript
  · exact absurd hstack (mapPages_noFrame (hpmm.symm ▸ hfull) (by decide) _ _)
  rw [List.length_replicate] at hfs₂ h₂ hpmm₂ hpages₂
  refine ⟨_, _, _, pages₂, hfs₁, hfs₂, rfl, rfl, ?_, h₁.owns.pmm, h₂, fun pg ↦ ?_⟩
  · rw [spawnVas, List.append_assoc, pageFrames_append, pageFrames_append, ← hpmm₁, ← hpmm₂,
      List.append_assoc]
  · rw [hpages₂, hpages₁]
    by_cases hin : userScriptBase / 4096 ≤ pg ∧ pg < userScriptBase / 4096 + 8
    · rw [if_pos hin, if_pos hin, getD_replicate_none, Option.getD_none]
    · rw [if_neg hin, if_neg hin]
      by_cases himage : userImageBase / 4096 ≤ pg ∧ pg < userImageBase / 4096 + blob.length
      · obtain ⟨j, rfl⟩ : ∃ j, pg = userImageBase / 4096 + j :=
          ⟨pg - userImageBase / 4096, by omega⟩
        rw [if_pos himage, if_pos himage, Nat.add_sub_cancel_left]
        simp only [List.getD_eq_getElem?_getD, List.getElem?_map,
          List.getElem?_eq_getElem (show j < blob.length by omega), Option.map_some,
          Option.getD_some]
      · rw [if_neg himage, if_neg himage]

/-- A script that fits the first page of the scratch: all three areas are mapped. -/
theorem spawnMapped (h : Loaded mem₀ m c [] fun _ ↦ none) {blob : List Page}
    (hblob : blob.length ≤ 2 ^ 18) {code : List Byte} (hcode : code.length ≤ 4095)
    {fs₁ fs₂ fs₃ : List ℕ} {m₁ m₂ : Machine}
    (himage : Mm.mapPages m (c * frameSize) userImageBase (blob.map some) = .ok (fs₁, m₁))
    (hscript : Mm.mapPages m₁ (c * frameSize) userScriptBase (List.replicate 8 none) =
      .ok (fs₂, m₂))
    (hstack : Mm.mapPages (pokeBytes m₂ (fs₂.headD 0) (code.take 32768 ++ [0])) (c * frameSize)
      userStackBase (List.replicate 16 none) = .ok (fs₃, m')) :
    ∃ imageFs scriptFs stackFs tables pages,
      fs₁ = imageFs.map (· * frameSize) ∧ fs₂ = scriptFs.map (· * frameSize) ∧
      fs₃ = stackFs.map (· * frameSize) ∧ imageFs.length = blob.length ∧ scriptFs.length = 8 ∧
      stackFs.length = 16 ∧
      pageFrames m.pmm [] (spawnVas blob.length) = imageFs ++ scriptFs ++ stackFs ∧
      Loaded mem₀ m' c tables pages ∧
      SpawnMapped mem₀ blob code imageFs scriptFs stackFs pages := by
  obtain ⟨imageFs, scriptFs, tables, pages, hfs₁, hfs₂, himageFs, hscriptFs, hframes, -, h₂, hpages⟩ :=
    h.imageAndScratch hblob himage hscript (pokeBytes_pmm _ _ _) hstack
  have hbases : userScriptBase / 4096 = userImageBase / 4096 + 0xC0000 ∧
      userStackBase / 4096 = userImageBase / 4096 + 0xF0000 := by decide
  obtain ⟨hscriptBase, hstackBase⟩ := hbases
  have hlenImage : imageFs.length = blob.length := by
    rw [himageFs, length_pageFrames, pagesFrom, List.length_map, List.length_range]
  have hlenScript : scriptFs.length = 8 := by
    rw [hscriptFs, length_pageFrames]
    rfl
  -- the script in its first page
  have hhead : fs₂.headD 0 = scriptFs.getD 0 0 * frameSize := by
    rw [hfs₂, hscriptFs, pagesFrom_succ, pageFrames]
    rfl
  have hfirst : pages (userScriptBase / 4096) =
      some (scriptFs.getD 0 0, mem₀ (scriptFs.getD 0 0)) := by
    rw [hpages, if_pos (by omega), Nat.sub_self]
  have htake : code.take 32768 = code := List.take_of_length_le (by omega)
  rw [htake, hhead] at hstack
  obtain ⟨h₃, hpmm₃⟩ := h₂.poke hfirst (code ++ [0]) (by
    rw [List.length_append, List.length_singleton, frameSize]
    omega)
  -- the stack
  obtain ⟨hfs₃, ⟨-, init, last, hsplit, hmiss⟩ | ⟨pages₄, h₄, -, hpages₄⟩⟩ := h₃.mapPages
    (List.replicate 16 none) (by decide) (by decide) hstack
  · rw [List.length_replicate] at hsplit
    rw [known_stack _ _ hsplit] at hmiss
    cases hmiss
  rw [List.length_replicate] at hfs₃ h₄ hpages₄
  rw [hpmm₃] at hfs₃ hpages₄
  refine ⟨imageFs, scriptFs, _, _, pages₄, hfs₁, hfs₂, hfs₃, hlenImage, hlenScript,
    length_pageFrames _ _ _, hframes, h₄, ⟨fun j hj ↦ ?_, ⟨(pokeBytes m₂
      (scriptFs.getD 0 0 * frameSize) (code ++ [0])).mem (scriptFs.getD 0 0), ?_,
      fun off hoff ↦ ?_⟩, fun j hpos hj ↦ ?_, fun j hj ↦ ?_, fun pg hi hs hk ↦ ?_⟩⟩
  · rw [hpages₄, if_neg (by omega), Function.update_of_ne (by omega), hpages, if_neg (by omega),
      if_pos (by omega), Nat.add_sub_cancel_left]
  · rw [hpages₄, if_neg (by omega), Function.update_self]
  · rw [pageByte_pokeBytes _ _ _ _ hoff, (h₂.held _ _ _ hfirst).2.2, List.length_append,
      List.length_singleton, Nat.add_sub_cancel_left]
    by_cases hin : off ≤ code.length
    · rw [if_pos hin, if_pos (by omega)]
    · rw [if_neg hin, if_neg (by omega)]
  · rw [hpages₄, if_neg (by omega), Function.update_of_ne (by omega), hpages, if_pos (by omega),
      Nat.add_sub_cancel_left]
  · rw [hpages₄, if_pos (by omega), Nat.add_sub_cancel_left, getD_replicate_none, Option.getD_none]
  · rw [hpages₄, if_neg hk, Function.update_of_ne (by omega), hpages, if_neg hs, if_neg hi]

/-- `sched_spawn` fills an empty address space. -/
theorem loadImage (h : Loaded mem₀ m c [] fun _ ↦ none) {blob : List Page}
    (hblob : blob.length ≤ 2 ^ 18) {code : List Byte} (hcode : code.length ≤ 4095)
    (hok : Mm.loadImage m (c * frameSize) blob code = .ok m') :
    ∃ tables pages, Loaded mem₀ m' c tables pages ∧ SpawnPages mem₀
      ((pageFrames m.pmm [] (spawnVas blob.length)).drop blob.length) blob code pages := by
  obtain ⟨fs₁, m₁, fs₂, m₂, fs₃, himage, hscript, hstack⟩ := loadImage_eq_ok hok
  obtain ⟨imageFs, scriptFs, stackFs, tables, pages, -, -, -, hlenImage, hlenScript, -, hframes,
    hdone, hmapped⟩ := h.spawnMapped hblob hcode himage hscript hstack
  refine ⟨tables, pages, hdone, ?_⟩
  have hdrop : (pageFrames m.pmm [] (spawnVas blob.length)).drop blob.length =
      scriptFs ++ stackFs := by
    rw [hframes, List.append_assoc, ← hlenImage, List.drop_left]
  rw [hdrop]
  refine ⟨fun j hj ↦ ⟨_, hmapped.image j hj⟩, ?_, fun j hpos hj ↦ ⟨scriptFs.getD j 0, ?_⟩,
    fun j hj ↦ ⟨stackFs.getD j 0, ?_⟩, hmapped.others⟩
  · obtain ⟨page, hpage, hbytes⟩ := hmapped.script
    refine ⟨_, page, hpage, fun off hoff ↦ (hbytes off hoff).trans ?_⟩
    rw [staleByte, Nat.div_eq_of_lt hoff, Nat.mod_eq_of_lt hoff,
      List.getD_append scriptFs stackFs 0 0 (by omega)]
  · rw [List.getD_append _ _ _ _ (by omega)]
    exact hmapped.scratch j hpos hj
  · rw [List.getD_append_right _ _ _ _ (by omega), hlenScript, Nat.add_sub_cancel_left]
    exact hmapped.stack j hj

end Loaded

/-- The bytes of the pages of a new process. -/
theorem SpawnPages.load {mem : ℕ → Page} {frames : List ℕ} {blob : List Page} {code : List Byte}
    {pages : ℕ → Option (ℕ × Page)} (h : SpawnPages mem frames blob code pages)
    (hblob : blob.length ≤ 2 ^ 18) (hcode : code.length ≤ 4095) (va : ℕ) :
    (pages (va / 4096)).map (fun fp ↦ pageByte fp.2 (va % 4096)) =
      spawnByte mem frames blob code va := by
  have hbases : userScriptBase = userImageBase + 0xC0000000 ∧
      userStackBase = userImageBase + 0xF0000000 ∧ userImageBase % 4096 = 0 := by decide
  obtain ⟨hscriptBase, hstackBase, halign⟩ := hbases
  rw [spawnByte]
  by_cases himage : userImageBase ≤ va ∧ va < userImageBase + blob.length * 4096
  · obtain ⟨f, hpage⟩ := h.image ((va - userImageBase) / 4096) (by omega)
    rw [if_pos himage, imageByte, show va / 4096 = userImageBase / 4096 +
      (va - userImageBase) / 4096 by omega, hpage, Option.map_some,
      show va % 4096 = (va - userImageBase) % 4096 by omega]
  rw [if_neg himage]
  by_cases hscript : userScriptBase ≤ va ∧ va < userScriptBase + 8 * 4096
  · rw [if_pos hscript]
    by_cases hfirst : va < userScriptBase + 4096
    · obtain ⟨f, page, hpage, hbytes⟩ := h.script
      rw [show va / 4096 = userScriptBase / 4096 by omega, hpage, Option.map_some,
        show va % 4096 = va - userScriptBase by omega, hbytes _ (by omega)]
    · obtain ⟨f, hpage⟩ := h.scratch ((va - userScriptBase) / 4096) (by omega) (by omega)
      rw [if_neg (by omega), show va / 4096 = userScriptBase / 4096 +
        (va - userScriptBase) / 4096 by omega, hpage, Option.map_some, staleByte,
        show va % 4096 = (va - userScriptBase) % 4096 by omega]
  rw [if_neg hscript]
  by_cases hstack : userStackBase ≤ va ∧ va < userStackBase + 16 * 4096
  · obtain ⟨f, hpage⟩ := h.stack ((va - userStackBase) / 4096) (by omega)
    rw [if_pos hstack, show va / 4096 = userStackBase / 4096 + (va - userStackBase) / 4096 by omega,
      hpage, Option.map_some, staleByte,
      show (8 * 4096 + (va - userStackBase)) / 4096 = 8 + (va - userStackBase) / 4096 by omega,
      show (8 * 4096 + (va - userStackBase)) % 4096 = va % 4096 by omega]
  · rw [if_neg hstack, h.others (va / 4096) (by omega) (by omega) (by omega), Option.map_none]

/-- The machine in which `sched_spawn` loads the image: the address space and the kernel stack are
there. -/
def spawnStart (k : Kernel) (need : ℕ) : Machine :=
  { (vmmNewAddressSpace k.machine k.bootPml4).2 with
    pmm := (kmalloc (vmmNewAddressSpace k.machine k.bootPml4).2.pmm need).2 }

/-- A `sched_spawn` that returns a process number has loaded the image, and its task has the new
address space. -/
theorem schedSpawn_loads {k : Kernel} (hpmm : PmmOk k.machine.pmm) {code : List Byte} {need : ℕ}
    (hok : (schedSpawn k code need).1 ≠ -1) {i : ℕ} (hslot : freeTask k = some i) :
    ∃ c, (vmmNewAddressSpace k.machine k.bootPml4).1 = c * frameSize ∧
      Loaded k.machine.mem (spawnStart k need) c [] (fun _ ↦ none) ∧
      (spawnStart k need).pmm = (kmalloc (pmmAllocFrame k.machine.pmm).2 need).2 ∧
      loadImage (spawnStart k need) (c * frameSize) k.blob code =
        .ok (schedSpawn k code need).2.machine ∧
      ((schedSpawn k code need).2.tasks i).cr3 = c * frameSize := by
  simp only [schedSpawn, hslot] at hok ⊢
  simp only [show (k.setTask i Task.fresh).machine = k.machine from rfl,
    show (k.setTask i Task.fresh).bootPml4 = k.bootPml4 from rfl,
    show (k.setTask i Task.fresh).blob = k.blob from rfl] at hok ⊢
  by_cases hspace : (vmmNewAddressSpace k.machine k.bootPml4).1 = 0
  · rw [if_pos hspace] at hok
    exact absurd rfl hok
  rw [if_neg hspace] at hok ⊢
  obtain ⟨c, hc, h⟩ := Loaded.newSpace hpmm hspace
  have hpmm' : (vmmNewAddressSpace k.machine k.bootPml4).2.pmm = (pmmAllocFrame k.machine.pmm).2 := by
    rw [vmmNewAddressSpace]
    dsimp only
    split_ifs <;> rfl
  by_cases hkstack : (kmalloc (vmmNewAddressSpace k.machine k.bootPml4).2.pmm need).1 = false
  · rw [if_pos hkstack] at hok
    exact absurd rfl hok
  rw [if_neg hkstack] at hok ⊢
  refine ⟨c, hc, h.kmalloc need, by rw [spawnStart, hpmm'], ?_⟩
  rw [← hc]
  rcases hload : loadImage (spawnStart k need) (vmmNewAddressSpace k.machine k.bootPml4).1 k.blob
    code with e | m'
  · rw [spawnStart] at hload
    rw [hload] at hok
    exact absurd rfl hok
  · rw [spawnStart] at hload
    rw [hload]
    exact ⟨rfl, by simp only [Kernel.setTask, Function.update_self]⟩

/-- What a new process can read. -/
theorem userLoad_schedSpawn {k : Kernel} (hpmm : PmmOk k.machine.pmm) {code : List Byte}
    (hcode : code.length ≤ 4095) {need : ℕ} (hok : (schedSpawn k code need).1 ≠ -1) {i : ℕ}
    (hslot : freeTask k = some i) {va : ℕ} (hva : IsUserVa va) :
    userLoad (schedSpawn k code need).2 i va =
      spawnByte k.machine.mem ((spawnFrames k need).drop k.blob.length) k.blob code va := by
  obtain ⟨c, -, h, hstart, hload, hcr3⟩ := schedSpawn_loads hpmm hok hslot
  obtain ⟨tables, pages, hdone, hpages⟩ := h.loadImage k.blob_fits hcode hload
  rw [hdone.userLoad_eq hcr3 hva, hpages.load k.blob_fits hcode, spawnFrames, hstart]

/-! ### Two states -/

/-- The states agree on what is public: the task table, the frame bitmap, and a user runtime of
`size` bytes. Free frames and the rest of the kernel's memory may differ. -/
structure SamePublic (k₁ k₂ : Kernel) (size : ℕ) : Prop where
  tasks : k₁.tasks = k₂.tasks
  bitmap : k₁.machine.pmm.bitmap = k₂.machine.pmm.bitmap
  frames : k₁.machine.pmm.totalFrames = k₂.machine.pmm.totalFrames
  length : k₁.blob.length = (size + 4095) / 4096 ∧ k₂.blob.length = (size + 4095) / 4096
  runtime : ∀ off < size, imageByte k₁.blob off = imageByte k₂.blob off

/-- A process spawned in either state reads the same bytes. -/
def SeesNoResidue (k₁ k₂ : Kernel) (code : List Byte) (need₁ need₂ : ℕ) : Prop :=
  ∀ i va, freeTask k₁ = some i → IsUserVa va →
    userLoad (schedSpawn k₁ code need₁).2 i va = userLoad (schedSpawn k₂ code need₂).2 i va

/-- The states agree on the residue as well: the kernel's bytes behind the runtime, to the end of its
last page, and what the frames of the script scratch, behind a script of `len` bytes and its
terminator, and of the stack hold. -/
structure SameResidue (k₁ k₂ : Kernel) (size len need₁ need₂ : ℕ) : Prop where
  image : ∀ off, size ≤ off → off < (size + 4095) / 4096 * 4096 →
    imageByte k₁.blob off = imageByte k₂.blob off
  frames : ∀ off, len < off → off < 24 * 4096 →
    staleByte k₁.machine.mem ((spawnFrames k₁ need₁).drop k₁.blob.length) off =
      staleByte k₂.machine.mem ((spawnFrames k₂ need₂).drop k₂.blob.length) off

section TwoStates

variable {k₁ k₂ : Kernel} {size : ℕ} {code : List Byte} {need₁ need₂ : ℕ}

/-- The bytes of two new processes are the same when those of the images and, behind the script,
those of the frames are. -/
theorem spawnByte_congr_iff {mem₁ mem₂ : ℕ → Page} {frames₁ frames₂ : List ℕ}
    {blob₁ blob₂ : List Page} (hlen : blob₂.length = blob₁.length) (hblob : blob₁.length ≤ 2 ^ 18)
    (hcode : code.length ≤ 4095) :
    (∀ va, IsUserVa va →
      spawnByte mem₁ frames₁ blob₁ code va = spawnByte mem₂ frames₂ blob₂ code va) ↔
      (∀ off < blob₁.length * 4096, imageByte blob₁ off = imageByte blob₂ off) ∧
        ∀ off, code.length < off → off < 24 * 4096 →
          staleByte mem₁ frames₁ off = staleByte mem₂ frames₂ off := by
  have hbases : userImageBase = 2 ^ 40 ∧ userScriptBase = userImageBase + 0xC0000000 ∧
      userStackBase = userImageBase + 0xF0000000 := by decide
  obtain ⟨himageBase, hscriptBase, hstackBase⟩ := hbases
  constructor
  · intro h
    constructor
    · intro off hoff
      have hva := h (userImageBase + off) (by rw [IsUserVa]; omega)
      rw [spawnByte, spawnByte, hlen, if_pos (by omega), if_pos (by omega), Nat.add_sub_cancel_left]
        at hva
      exact Option.some.inj hva
    · intro off hbehind hoff
      by_cases hscript : off < 8 * 4096
      · have hva := h (userScriptBase + off) (by rw [IsUserVa]; omega)
        rw [spawnByte, spawnByte, hlen, if_neg (by omega), if_pos (by omega), if_neg (by omega),
          if_neg (by omega), if_pos (by omega), if_neg (by omega), Nat.add_sub_cancel_left] at hva
        exact Option.some.inj hva
      · obtain ⟨j, rfl⟩ : ∃ j, off = 8 * 4096 + j := ⟨off - 8 * 4096, by omega⟩
        have hva := h (userStackBase + j) (by rw [IsUserVa]; omega)
        rw [spawnByte, spawnByte, hlen, if_neg (by omega), if_neg (by omega), if_pos (by omega),
          if_neg (by omega), if_neg (by omega), if_pos (by omega), Nat.add_sub_cancel_left] at hva
        exact Option.some.inj hva
  · rintro ⟨himage, hframes⟩ va -
    rw [spawnByte, spawnByte, hlen]
    split_ifs with hva hscript hin hstack
    · rw [himage _ (by omega)]
    · rfl
    · rw [hframes _ (by omega) (by omega)]
    · rw [hframes _ (by omega) (by omega)]
    · rfl

/-- A process spawned with a script of at most 4095 bytes reads the same bytes in two states that
agree on what is public exactly when they agree on the residue. -/
theorem seesNoResidue_iff (hpmm₁ : PmmOk k₁.machine.pmm) (hpmm₂ : PmmOk k₂.machine.pmm)
    (hpublic : SamePublic k₁ k₂ size) (hcode : code.length ≤ 4095)
    (hok₁ : (schedSpawn k₁ code need₁).1 ≠ -1) (hok₂ : (schedSpawn k₂ code need₂).1 ≠ -1) :
    SeesNoResidue k₁ k₂ code need₁ need₂ ↔
      SameResidue k₁ k₂ size code.length need₁ need₂ := by
  obtain ⟨hlen₁, hlen₂⟩ := hpublic.length
  obtain ⟨i, hslot⟩ : ∃ i, freeTask k₁ = some i := by
    rcases hslot : freeTask k₁ with - | i
    · rw [schedSpawn_full hslot] at hok₁
      exact absurd rfl hok₁
    · exact ⟨i, rfl⟩
  have hslot₂ : freeTask k₂ = some i := by
    rw [← hslot, freeTask, freeTask, hpublic.tasks]
  calc SeesNoResidue k₁ k₂ code need₁ need₂
      ↔ ∀ va, IsUserVa va →
          spawnByte k₁.machine.mem ((spawnFrames k₁ need₁).drop k₁.blob.length) k₁.blob code va =
            spawnByte k₂.machine.mem ((spawnFrames k₂ need₂).drop k₂.blob.length) k₂.blob code va := by
        constructor
        · intro h va hva
          rw [← userLoad_schedSpawn hpmm₁ hcode hok₁ hslot hva,
            ← userLoad_schedSpawn hpmm₂ hcode hok₂ hslot₂ hva]
          exact h i va hslot hva
        · intro h j va hj hva
          obtain rfl : i = j := Option.some.inj (hslot.symm.trans hj)
          rw [userLoad_schedSpawn hpmm₁ hcode hok₁ hslot hva,
            userLoad_schedSpawn hpmm₂ hcode hok₂ hslot₂ hva]
          exact h va hva
    _ ↔ _ := spawnByte_congr_iff (hlen₂.trans hlen₁.symm) k₁.blob_fits hcode
    _ ↔ SameResidue k₁ k₂ size code.length need₁ need₂ := by
        rw [hlen₁]
        constructor
        · rintro ⟨himage, hframes⟩
          exact ⟨fun off _ hoff ↦ himage off hoff, by rw [hlen₁]; exact hframes⟩
        · intro h
          refine ⟨fun off hoff ↦ ?_, by rw [← hlen₁]; exact h.frames⟩
          by_cases hin : off < size
          · exact hpublic.runtime off hin
          · exact h.image off (not_lt.mp hin) hoff

end TwoStates

/-- A machine of 72 frames, the first 8 of them reserved; one of the free ones begins with the word
`w`. -/
def leakKernel (w : Word) : Kernel where
  machine :=
    { mem := fun f i ↦ if f = 23 ∧ i = 0 then w else 0
      pmm :=
        { bitmap := 0xFF :: List.replicate 8 0
          totalFrames := 72
          freeFrames := 64 } }
  tasks := fun _ ↦ Task.fresh
  nextPid := 1
  winPages := 16
  weights := fun _ _ ↦ 0
  swap := smallKernel.swap
  pgpred := PgHist.empty
  bootPml4 := 0x1000
  blob := [fun _ ↦ 0]
  blob_fits := by decide

theorem leakKernel_pmmOk (w : Word) : PmmOk (leakKernel w).machine.pmm := by
  have hpmm : PmmOk (leakKernel 0).machine.pmm := ⟨by decide, by decide, by decide⟩
  exact hpmm

theorem leakKernel_samePublic (w w' : Word) : SamePublic (leakKernel w) (leakKernel w') 4096 :=
  ⟨rfl, rfl, rfl, ⟨rfl, rfl⟩, fun _ _ ↦ rfl⟩

theorem leakKernel_spawns :
    (schedSpawn (leakKernel 0) [0x61] 0).1 ≠ -1 ∧ (schedSpawn (leakKernel 0xAB) [0x61] 0).1 ≠ -1 := by
  decide +kernel

/-- The theorem at two machines that differ in a word of a free frame. -/
theorem seesNoResidue_iff_leakKernel :
    SeesNoResidue (leakKernel 0) (leakKernel 0xAB) [0x61] 0 0 ↔
      SameResidue (leakKernel 0) (leakKernel 0xAB) 4096 1 0 0 :=
  seesNoResidue_iff (leakKernel_pmmOk 0) (leakKernel_pmmOk 0xAB) (leakKernel_samePublic 0 0xAB)
    (by decide) leakKernel_spawns.1 leakKernel_spawns.2

/-- What a free frame held is read through the stack. -/
theorem spawn_reveals_stack_frame :
    ¬ ∀ (k₁ k₂ : Kernel) (size : ℕ) (code : List Byte) (need₁ need₂ : ℕ),
      PmmOk k₁.machine.pmm → PmmOk k₂.machine.pmm → SamePublic k₁ k₂ size →
        (schedSpawn k₁ code need₁).1 ≠ -1 → (schedSpawn k₂ code need₂).1 ≠ -1 →
          SeesNoResidue k₁ k₂ code need₁ need₂ := by
  intro h
  have hsame := h (leakKernel 0) (leakKernel 0xAB) 4096 [0x61] 0 0 (leakKernel_pmmOk 0)
    (leakKernel_pmmOk 0xAB) (leakKernel_samePublic 0 0xAB) leakKernel_spawns.1 leakKernel_spawns.2
    1 userStackBase (by decide) (by decide)
  have hread : userLoad (schedSpawn (leakKernel 0) [0x61] 0).2 1 userStackBase ≠
      userLoad (schedSpawn (leakKernel 0xAB) [0x61] 0).2 1 userStackBase := by
    decide +kernel
  exact hread hsame

end NoOsKernel.Mm
