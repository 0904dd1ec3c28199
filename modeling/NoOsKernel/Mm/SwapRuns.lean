import NoOsKernel.Lib.SlotPool
import NoOsKernel.Mm.Ownership
import NoOsKernel.Mm.SwapPages

/-!
# Runs of the swapper

Tasks write to their pages while pages of data are swapped out and in, prefetched, reclaimed and
dropped at the exit of a task, in any order. Next to the kernel runs a record of what each page held
when it was last swapped out. The slots are a pool (`Lib.Pool`): they are held by the entries of all
tasks together, and hold what the record says.
-/

set_option autoImplicit false
set_option relaxedAutoImplicit false

namespace NoOsKernel.Mm

open Lib Lib.Radix

/-! ### The system -/

/-- The kernel, with the pages that were swapped out as they were then. -/
structure SwapWatch where
  kernel : Kernel
  evicted : ℕ × ℕ → Option Page

/-- What happens: swapping, a task that writes, and a predictor that learns. -/
inductive SwapOp where
  | swapOut (i va : ℕ)
  | swapIn (i va : ℕ)
  | prefetch (i : ℕ)
  | reclaim
  | exit (i : ℕ)
  | store (i va : ℕ) (b : Byte)
  | observe (hist : PgHist)

/-- The kernel after a step. -/
def SwapOp.apply (k : Kernel) : SwapOp → Kernel
  | .swapOut i va => (Mm.swapOut k i va).2
  | .swapIn i va => (Mm.swapIn k i va).2
  | .prefetch i => swapPrefetch k i
  | .reclaim => swapReclaim k
  | .exit i => swapExitTask k i
  | .store i va b => userStore k i va b
  | .observe hist => { k with pgpred := hist }

/-- The record after a step: pages that have got a slot held what was mapped before it. -/
def evictedAfter (k k' : Kernel) (evicted : ℕ × ℕ → Option Page) : ℕ × ℕ → Option Page :=
  snapshot (slotHolder k) (slotHolder k') (pageAt k) evicted

/-- One step. -/
def swapStep (w : SwapWatch) (op : SwapOp) : SwapWatch where
  kernel := op.apply w.kernel
  evicted := evictedAfter w.kernel (op.apply w.kernel) w.evicted

/-- Steps are for tasks of the table, and pages of data are swapped out; a task that writes has an
address space. -/
def CanSwap (w : SwapWatch) : SwapOp → Prop
  | .swapOut i va => i < taskMax ∧ IsDataVa va
  | .store i _ _ => (w.kernel.tasks i).cr3 ≠ 0
  | _ => True

instance (w : SwapWatch) : (op : SwapOp) → Decidable (CanSwap w op)
  | .swapOut _ _ => inferInstanceAs (Decidable (_ ∧ _))
  | .store _ _ _ => inferInstanceAs (Decidable (_ ≠ _))
  | .swapIn _ _ | .prefetch _ | .reclaim | .exit _ | .observe _ => isTrue trivial

/-- Nothing is swapped out yet: the slots are clear, as `swap_init` leaves them. -/
structure Unswapped (k : Kernel) : Prop where
  kernel : KernelInv k
  covers : k.swap.pages ≤ bitLen k.swap.slots
  clear : ∀ s, bitGet k.swap.slots s = false
  empty : ∀ i, (k.tasks i).swapMap = []

/-- Spawning a task swaps nothing out. -/
theorem Unswapped.spawn {k : Kernel} (h : Unswapped k) {code : List Byte}
    (hcode : code.length ≤ 4095) (need : ℕ) : Unswapped (schedSpawn k code need).2 := by
  have h' := h.kernel.schedSpawn hcode need
  rcases hslot : freeTask k with - | i
  · rw [schedSpawn_full hslot]
    exact h
  obtain ⟨hswap, htasks⟩ := schedSpawn_tasks hslot code need
  refine ⟨h', by rw [hswap]; exact h.covers, by rw [hswap]; exact h.clear, fun j ↦ ?_⟩
  rcases htasks with ⟨heq, -⟩ | ⟨cr3, heq, -⟩
  all_goals
    rw [heq]
    by_cases hj : j = i
    · rw [hj, Function.update_self]
      rfl
    · rw [Function.update_of_ne hj]
      exact h.empty j

/-! ### The invariant -/

/-- The invariant of the swapper. -/
structure SwapInv (k : Kernel) (evicted : ℕ × ℕ → Option Page) : Prop where
  kernel : KernelInv k
  covers : k.swap.pages ≤ bitLen k.swap.slots
  bounded : ∀ s, bitGet k.swap.slots s = true → s < k.swap.pages
  keys : ∀ i, KeysDistinct (k.tasks i).swapMap
  pool : Pool (slotHolder k) (fun s ↦ bitGet k.swap.slots s = true)
    (fun s ↦ some (k.swap.store s)) evicted
  away : ∀ i va, IsDataVa va → slotHolder k (i, va / 4096) ≠ none →
    mappedPage k i va = none ∧ HasTable k i va
  few : ∀ i, taskMax ≤ i → (k.tasks i).swapMap = []
  idle : k.swap.active = false → ∀ i, (k.tasks i).swapMap = []

variable {k k' k'' : Kernel} {evicted : ℕ × ℕ → Option Page}

/-- Only pages of data have entries. -/
theorem isDataVa_of_slot (h : KernelInv k) {p : ℕ × ℕ} (hp : slotHolder k p ≠ none) :
    IsDataVa (p.2 * 4096) := by
  obtain ⟨slot, hslot⟩ := Option.ne_none_iff_exists'.mp hp
  rw [slotHolder, slotOf, Option.map_eq_some_iff] at hslot
  obtain ⟨e, hfind, -⟩ := hslot
  have hkey := List.find?_some hfind
  rw [beq_iff_eq] at hkey
  have hrange := (h.tasks p.1).swapped e (List.mem_of_find?_eq_some hfind)
  rw [hkey, userImageBase, userModelBase] at hrange
  rw [IsDataVa, userImageBase, userModelBase]
  omega

theorem slotHolder_of_empty {i : ℕ} (h : (k.tasks i).swapMap = []) (key : ℕ) :
    slotHolder k (i, key) = none := by
  rw [slotHolder, h]
  rfl

namespace SwapInv

theorem of_unswapped (h : Unswapped k) : SwapInv k evicted := by
  have hnone : ∀ p, slotHolder k p = none := fun p ↦ slotHolder_of_empty (h.empty p.1) p.2
  have hfalse : ∀ s, ¬ bitGet k.swap.slots s = true := fun s hs ↦ by
    rw [h.clear s] at hs
    exact Bool.noConfusion hs
  refine ⟨h.kernel, h.covers, fun s hs ↦ absurd hs (hfalse s), fun i ↦ ?_,
    ⟨⟨fun p s hp ↦ ?_, fun p q s hp _ ↦ ?_⟩, fun s hs ↦ absurd hs (hfalse s), fun p s hp ↦ ?_⟩,
    fun i va _ hheld ↦ absurd (hnone _) hheld, fun i _ ↦ h.empty i, fun _ ↦ h.empty⟩
  · rw [h.empty i]
    exact List.nodup_nil
  all_goals
    rw [hnone p] at hp
    cases hp

/-- Nothing the swapper knows has changed. -/
theorem of_same (h : SwapInv k evicted) (h' : KernelInv k')
    (hswaps : ∀ i, (k'.tasks i).swapMap = (k.tasks i).swapMap)
    (hslots : k'.swap.slots = k.swap.slots) (hpages : k'.swap.pages = k.swap.pages)
    (hstore : k'.swap.store = k.swap.store) (hactive : k'.swap.active = k.swap.active)
    (haway : ∀ i va, IsDataVa va → (mappedPage k i va = none → mappedPage k' i va = none) ∧
      (HasTable k i va → HasTable k' i va)) : SwapInv k' evicted := by
  have hown : slotHolder k' = slotHolder k := by
    funext p
    rw [slotHolder, slotHolder, hswaps]
  refine ⟨h', by rw [hpages, hslots]; exact h.covers, by rw [hpages, hslots]; exact h.bounded,
    fun i ↦ by rw [hswaps]; exact h.keys i, by rw [hown, hslots, hstore]; exact h.pool,
    fun i va hva hheld ↦ ?_, fun i hi ↦ by rw [hswaps]; exact h.few i hi,
    fun hoff i ↦ by rw [hswaps]; exact h.idle (hactive ▸ hoff) i⟩
  rw [hown] at hheld
  obtain ⟨hnone, htable⟩ := h.away i va hva hheld
  exact ⟨(haway i va hva).1 hnone, (haway i va hva).2 htable⟩

/-! ### Pages give up their slots -/

/-- The pages `gone` give up their slots, and nothing else that the swapper knows changes. -/
structure GivesUp (k k' : Kernel) (gone : ℕ × ℕ → Prop) : Prop where
  holders : ∀ p s, slotHolder k' p = some s ↔ slotHolder k p = some s ∧ ¬ gone p
  length : bitLen k'.swap.slots = bitLen k.swap.slots
  bits : ∀ s, bitGet k'.swap.slots s = true ↔
    bitGet k.swap.slots s = true ∧ ∀ p, slotHolder k p = some s → ¬ gone p
  pages : k'.swap.pages = k.swap.pages
  store : k'.swap.store = k.swap.store
  active : k'.swap.active = true
  keys : ∀ j, KeysDistinct (k'.tasks j).swapMap
  few : ∀ j, taskMax ≤ j → (k'.tasks j).swapMap = []
  away : ∀ j v, IsDataVa v → ¬ gone (j, v / 4096) → mappedPage k j v = none → HasTable k j v →
    mappedPage k' j v = none ∧ HasTable k' j v

theorem givesUp (h : SwapInv k evicted) (h' : KernelInv k') {gone : ℕ × ℕ → Prop}
    (hgives : GivesUp k k' gone) : SwapInv k' (evictedAfter k k' evicted) := by
  have hold : ∀ p, slotHolder k' p ≠ none → slotHolder k p ≠ none ∧ ¬ gone p := by
    intro p hp
    obtain ⟨s, hs⟩ := Option.ne_none_iff_exists'.mp hp
    obtain ⟨hbefore, hstays⟩ := (hgives.holders p s).mp hs
    exact ⟨Option.ne_none_iff_exists'.mpr ⟨s, hbefore⟩, hstays⟩
  rw [evictedAfter, snapshot_eq_saved fun p hp ↦ (hold p hp).1]
  refine ⟨h', ?_, fun s hs ↦ ?_, hgives.keys, ?_, fun j v hv hheld ↦ ?_, hgives.few,
    fun hoff ↦ ?_⟩
  · rw [hgives.pages, hgives.length]
    exact h.covers
  · rw [hgives.pages]
    exact h.bounded s ((hgives.bits s).mp hs).1
  · rw [hgives.store]
    exact h.pool.drop gone hgives.holders hgives.bits
  · obtain ⟨hbefore, hstays⟩ := hold _ hheld
    obtain ⟨hnone, htable⟩ := h.away j v hv hbefore
    exact hgives.away j v hv hstays hnone htable
  · rw [hgives.active] at hoff
    exact Bool.noConfusion hoff

/-! ### A page goes out -/

theorem slotHolder_out {i va slot : ℕ} {page : Page} (hout : SwappedOut k k' i va slot page) :
    slotHolder k' = Function.update (slotHolder k) (i, va / 4096) (some slot) := by
  funext p
  obtain ⟨j, key⟩ := p
  have habsent := hout.absent
  rw [slotHolder] at habsent
  simp only [slotHolder]
  by_cases hj : j = i
  · subst hj
    rw [hout.entries, slotOf_append habsent]
    by_cases hkey : key = va / 4096
    · rw [hkey, Function.update_self, Function.update_self]
    · rw [Function.update_of_ne hkey, Function.update_of_ne fun heq ↦ hkey (Prod.mk.inj heq).2]
      rfl
  · rw [hout.others j hj, Function.update_of_ne fun heq ↦ hj (Prod.mk.inj heq).1]
    rfl

theorem out (h : SwapInv k evicted) (h' : KernelInv k') {i va slot : ℕ} {page : Page}
    (hi : i < taskMax) (hva : IsDataVa va) (hout : SwappedOut k k' i va slot page) :
    SwapInv k' (evictedAfter k k' evicted) := by
  have hown := slotHolder_out hout
  obtain ⟨-, hlt, hclear⟩ := firstClear_eq_some hout.first
  have hbit : ∀ s, bitGet k'.swap.slots s = true ↔ bitGet k.swap.slots s = true ∨ s = slot := by
    intro s
    rw [hout.slots, bitGet_bitSet (hlt.trans_le h.covers), Bool.or_eq_true, decide_eq_true_eq]
    exact or_comm
  have hnew : ¬ bitGet k.swap.slots slot = true := by
    rw [hclear]
    exact Bool.false_ne_true
  refine ⟨h', ?_, fun s hs ↦ ?_, fun j ↦ ?_, ?_, fun j v hv hheld ↦ ?_, fun j hj ↦ ?_,
    fun hoff ↦ ?_⟩
  · rw [hout.pages, hout.slots, bitLen, length_bitSet]
    exact h.covers
  · rw [hout.pages]
    rcases (hbit s).mp hs with hold | rfl
    · exact h.bounded s hold
    · exact hlt
  · by_cases hj : j = i
    · rw [hj, hout.entries]
      exact (h.keys i).append hout.absent
    · rw [hout.others j hj]
      exact h.keys j
  · have hpool := h.pool.put (some page) hout.absent hnew hbit
    have hpage : pageAt k (i, va / 4096) = some page := by
      rw [pageAt_div h.kernel hva]
      exact hout.mapped
    have hstore : (fun s ↦ some (k'.swap.store s)) =
        Function.update (fun s ↦ some (k.swap.store s)) slot (some page) := by
      funext s
      rw [hout.store]
      by_cases hs : s = slot
      · rw [hs, Function.update_self, Function.update_self]
      · rw [Function.update_of_ne hs, Function.update_of_ne hs]
    rw [evictedAfter, hown, snapshot_update hout.absent, hpage, hstore]
    exact hpool
  · by_cases hmine : j = i ∧ v / 4096 = va / 4096
    · have hpath := pathOf_congr hmine.2
      have htable := hout.change.table
      have hhere := hout.change.here
      rw [mappedPage_eq h' hva.isUserVa, ← hpath] at hhere
      rw [hmine.1]
      refine ⟨by rw [mappedPage_eq h' hv.isUserVa]; exact hhere, ?_⟩
      refine (hout.change.tables i v hv.isUserVa).mpr ?_
      obtain ⟨pt, hpt⟩ := htable
      refine ⟨pt, ?_⟩
      rw [show [pdi v, pdpti v, pml4i v] = [pdi va, pdpti va, pml4i va] from
        congrArg List.tail hpath]
      exact hpt
    · have hne : ¬ (j, v / 4096) = (i, va / 4096) := fun heq ↦ hmine (Prod.mk.inj heq)
      rw [hown, Function.update_of_ne hne] at hheld
      obtain ⟨hnone, htable⟩ := h.away j v hv hheld
      refine ⟨?_, (hout.change.tables j v hv.isUserVa).mpr htable⟩
      rw [hout.change.elsewhere j v hv.isUserVa fun hsame ↦ hmine
        ⟨hsame.1, (pathOf_eq_iff_of_data hv hva).mp hsame.2⟩]
      exact hnone
  · have hji : j ≠ i := by
      rintro rfl
      exact absurd hi (not_lt.mpr hj)
    rw [hout.others j hji]
    exact h.few j hj
  · rw [hout.active.2] at hoff
    exact Bool.noConfusion hoff

/-! ### A page comes in -/

theorem slotHolder_in {i va slot : ℕ} (hin : SwappedIn k k' i va slot) (p : ℕ × ℕ) :
    slotHolder k' p = if p = (i, va / 4096) then none else slotHolder k p := by
  obtain ⟨j, key⟩ := p
  simp only [slotHolder, Prod.mk.injEq]
  by_cases hj : j = i
  · subst hj
    rw [hin.entries key]
    simp only [true_and]
  · rw [hin.others j hj, if_neg fun heq ↦ hj heq.1]

theorem givesUp_in (h : SwapInv k evicted) {i va slot : ℕ} (hin : SwappedIn k k' i va slot) :
    GivesUp k k' fun p ↦ p = (i, va / 4096) where
  holders p s := by
    rw [slotHolder_in hin p]
    by_cases hmine : p = (i, va / 4096)
    · rw [if_pos hmine]
      exact iff_of_false (by rintro ⟨⟩) fun hp ↦ hp.2 hmine
    · rw [if_neg hmine]
      exact (and_iff_left hmine).symm
  length := by rw [hin.slots, bitLen, length_bitClr, bitLen]
  bits s := by
    have hmarked := h.pool.excl.marked_of_own _ _ hin.entry
    have hlen : slot < bitLen k.swap.slots := (h.bounded slot hmarked).trans_le h.covers
    rw [hin.slots, bitGet_bitClr hlen, Bool.and_eq_true, Bool.not_eq_true',
      decide_eq_false_iff_not, and_comm]
    refine and_congr_right fun _ ↦ ⟨?_, ?_⟩
    · rintro hne p hp rfl
      rw [hin.entry, Option.some.injEq] at hp
      exact hne hp.symm
    · rintro hgone rfl
      exact hgone _ hin.entry rfl
  pages := hin.pages
  store := hin.store
  active := hin.active.2
  keys j := by
    by_cases hj : j = i
    · rw [hj]
      exact hin.keys
    · rw [hin.others j hj]
      exact h.keys j
  few j hj := by
    have hji : j ≠ i := by
      rintro rfl
      have hentry := hin.entry
      rw [slotHolder_of_empty (h.few j hj)] at hentry
      cases hentry
    rw [hin.others j hji]
    exact h.few j hj
  away j v hv hne hnone htable := by
    refine ⟨?_, (hin.change.tables j v hv.isUserVa).mpr htable⟩
    rw [hin.change.elsewhere j v hv.isUserVa fun hsame ↦ hne
      (by rw [hsame.1, (pathOf_eq_iff_of_data hv hin.data).mp hsame.2])]
    exact hnone

theorem htables (h : SwapInv k evicted) (i : ℕ) :
    ∀ v, IsDataVa v → slotHolder k (i, v / 4096) ≠ none → HasTable k i v :=
  fun v hv hheld ↦ (h.away i v hv hheld).2

/-- `swap_in` saves nothing. -/
theorem swapIn (h : SwapInv k evicted) (i va : ℕ) :
    SwapInv (Mm.swapIn k i va).2 (evictedAfter k (Mm.swapIn k i va).2 evicted) := by
  have h' := (h.kernel.swapIn i va).1
  rcases swapIn_cases h.kernel va (h.keys i) (h.htables i) with hfail | ⟨k', slot, heq, hin⟩
  · rw [hfail, evictedAfter, snapshot_eq_saved fun _ hp ↦ hp]
    exact h
  · rw [heq] at h' ⊢
    exact h.givesUp h' (h.givesUp_in hin)

theorem prefetch (h : SwapInv k evicted) (i : ℕ) :
    SwapInv (swapPrefetch k i) (evictedAfter k (swapPrefetch k i) evicted) := by
  have hnothing : SwapInv k (evictedAfter k k evicted) := by
    rw [evictedAfter, snapshot_eq_saved fun _ hp ↦ hp]
    exact h
  simp only [swapPrefetch]
  split_ifs
  all_goals first | exact hnothing | exact h.swapIn i _

/-! ### Pages of several tasks go out -/

end SwapInv

/-- Pages have been swapped out, and nothing else has happened to the pages of data. -/
structure Evicts (k k' : Kernel) (evicted : ℕ × ℕ → Option Page) : Prop where
  inv : SwapInv k' (evictedAfter k k' evicted)
  grows : ∀ p, slotHolder k p ≠ none → slotHolder k' p ≠ none
  keeps : ∀ i va, IsDataVa va → slotHolder k' (i, va / 4096) = none →
    mappedPage k' i va = mappedPage k i va

namespace Evicts

theorem refl (h : SwapInv k evicted) : Evicts k k evicted := by
  refine ⟨?_, fun _ hp ↦ hp, fun _ _ _ _ ↦ rfl⟩
  rw [evictedAfter, snapshot_eq_saved fun _ hp ↦ hp]
  exact h

/-- One page more. -/
theorem out (h : Evicts k k' evicted) {i va : ℕ} (hi : i < taskMax) (hva : IsDataVa va) :
    Evicts k (swapOut k' i va).2 evicted := by
  have h'' := h.inv.kernel.swapOut (i := i) (Or.inr hva)
  rcases swapOut_cases h.inv.kernel (i := i) hva with hfail | ⟨k'', slot, page, heq, hout⟩
  · rw [hfail]
    exact h
  rw [heq] at h'' ⊢
  have hown := SwapInv.slotHolder_out hout
  have hgrow : ∀ p, slotHolder k' p ≠ none → slotHolder k'' p ≠ none := by
    intro p hp
    rw [hown]
    by_cases hmine : p = (i, va / 4096)
    · rw [hmine, Function.update_self]
      exact nofun
    · rwa [Function.update_of_ne hmine]
  have hinv := h.inv.out h'' hi hva hout
  rw [evictedAfter, evictedAfter, snapshot_trans h.grows hgrow fun p hp hheld ↦ ?_] at hinv
  · refine ⟨hinv, fun p hp ↦ hgrow p (h.grows p hp), fun j v hv hnone ↦ ?_⟩
    rw [hown] at hnone
    have hne : (j, v / 4096) ≠ (i, va / 4096) := by
      intro hsame
      rw [hsame, Function.update_self] at hnone
      exact absurd hnone nofun
    rw [Function.update_of_ne hne] at hnone
    rw [hout.change.elsewhere j v hv.isUserVa fun hsame ↦ hne
      (by rw [hsame.1, (pathOf_eq_iff_of_data hv hva).mp hsame.2])]
    exact h.keeps j v hv hnone
  · -- the page that goes out has not changed since the first state
    have hdata := isDataVa_of_slot h'' hheld
    have hkey : p.2 * 4096 / 4096 = p.2 := Nat.mul_div_cancel _ (by decide)
    exact h.keeps p.1 (p.2 * 4096) hdata (by rw [hkey]; exact hp)

/-- The counter of reclaimed pages. -/
theorem count (h : Evicts k k' evicted) (n : ℕ) :
    Evicts k { k' with swap := { k'.swap with reclaims := n } } evicted := by
  refine ⟨h.inv.of_same (h.inv.kernel.of_machine rfl rfl h.inv.kernel.mem) (fun _ ↦ rfl) rfl rfl
    rfl rfl fun i va _ ↦ ⟨fun hnone ↦ hnone, fun htable ↦ htable⟩, h.grows, h.keeps⟩

theorem reclaimPages (h : Evicts k k' evicted) {i : ℕ} (hi : i < taskMax) (low : ℕ) (vas : List ℕ)
    (hvas : ∀ va ∈ vas, IsDataVa va) : Evicts k (Mm.reclaimPages low i k' vas) evicted := by
  induction vas generalizing k' with
  | nil => exact h
  | cons va rest ih =>
    have hout := h.out hi (hvas va (List.mem_cons_self ..))
    have hrest : ∀ va ∈ rest, IsDataVa va := fun va hva ↦ hvas va (List.mem_cons_of_mem _ hva)
    rw [Mm.reclaimPages]
    simp only
    split_ifs
    · exact hout.count _
    · exact ih (hout.count _) hrest
    · exact ih hout hrest

theorem reclaimTask (h : Evicts k k' evicted) {i : ℕ} (hi : i < taskMax) :
    Evicts k (Mm.reclaimTask k' i) evicted := by
  simp only [Mm.reclaimTask]
  split_ifs
  · exact h
  · exact h
  · exact h.reclaimPages hi _ _ fun va hva ↦ h.inv.kernel.reclaim_low hva

theorem swapReclaim (h : SwapInv k evicted) : Evicts k (Mm.swapReclaim k) evicted := by
  rw [Mm.swapReclaim]
  split_ifs
  · exact refl h
  · exact refl h
  · rw [schedForeachUser]
    refine List.foldlRecOn (motive := fun k' ↦ Evicts k k' evicted) (List.range taskMax) _ (refl h)
      fun k' hk' i hi ↦ ?_
    split_ifs
    · exact hk'.reclaimTask (List.mem_range.mp hi)
    · exact hk'

end Evicts

namespace SwapInv

/-! ### A task ends, or writes -/

theorem slots_foldl_slotFree (s : Swap) (slots : List ℕ) (hslots : ∀ i ∈ slots, i < bitLen s.slots) :
    bitLen (slots.foldl slotFree s).slots = bitLen s.slots ∧
      (∀ i, bitGet (slots.foldl slotFree s).slots i = true ↔
        bitGet s.slots i = true ∧ i ∉ slots) ∧
      (slots.foldl slotFree s).pages = s.pages ∧ (slots.foldl slotFree s).store = s.store ∧
      (slots.foldl slotFree s).active = s.active := by
  induction slots generalizing s with
  | nil => exact ⟨rfl, fun i ↦ (and_iff_left List.not_mem_nil).symm, rfl, rfl, rfl⟩
  | cons j rest ih =>
    have hlen : bitLen (slotFree s j).slots = bitLen s.slots := by
      rw [slotFree, bitLen, length_bitClr, bitLen]
    obtain ⟨hlen', hbit, hpages, hstore, hactive⟩ := ih (slotFree s j) fun i hi ↦ by
      rw [hlen]
      exact hslots i (List.mem_cons_of_mem _ hi)
    rw [List.foldl_cons]
    refine ⟨hlen'.trans hlen, fun i ↦ ?_, hpages, hstore, hactive⟩
    rw [hbit, slotFree, bitGet_bitClr (hslots j (List.mem_cons_self ..)), Bool.and_eq_true,
      Bool.not_eq_true', decide_eq_false_iff_not, List.mem_cons, not_or]
    tauto

theorem mem_slots_iff (h : SwapInv k evicted) {i s : ℕ} :
    s ∈ (k.tasks i).swapMap.map SwapEnt.slot ↔ ∃ key, slotHolder k (i, key) = some s := by
  rw [List.mem_map]
  constructor
  · rintro ⟨e, he, rfl⟩
    exact ⟨e.vkey, (slotOf_eq_some (h.keys i)).mpr he⟩
  · rintro ⟨key, hkey⟩
    exact ⟨⟨key, s⟩, (slotOf_eq_some (h.keys i)).mp hkey, rfl⟩

/-- A task that ends gives up all its slots. -/
theorem givesUp_exit (h : SwapInv k evicted) (hactive : k.swap.active = true) (i : ℕ)
    (hk' : k' = { k with
      swap := ((k.tasks i).swapMap.map SwapEnt.slot).foldl slotFree k.swap
      tasks := Function.update k.tasks i { k.tasks i with swapMap := [] } }) :
    GivesUp k k' fun p ↦ p.1 = i := by
  obtain ⟨hlen, hbit, hpages, hstore, hstays⟩ := slots_foldl_slotFree k.swap
    ((k.tasks i).swapMap.map SwapEnt.slot) fun s hs ↦ by
      obtain ⟨key, hkey⟩ := h.mem_slots_iff.mp hs
      exact (h.bounded s (h.pool.excl.marked_of_own _ _ hkey)).trans_le h.covers
  have hmine : (k'.tasks i).swapMap = [] := by
    simp only [hk', Function.update_self]
  have hother : ∀ j ≠ i, k'.tasks j = k.tasks j := by
    intro j hj
    rw [hk']
    exact Function.update_of_ne hj _ _
  have hroot : rootOf k' = rootOf k := rootOf_congr fun l ↦ by
    by_cases hl : l = i
    · simp only [hl, hk', Function.update_self]
    · rw [hother l hl]
  have hswap : k'.swap = ((k.tasks i).swapMap.map SwapEnt.slot).foldl slotFree k.swap := by
    rw [hk']
  have hmachine : k'.machine = k.machine := by rw [hk']
  refine ⟨?_, by rw [hswap, hlen], fun s ↦ ?_, by rw [hswap, hpages], by rw [hswap, hstore],
    by rw [hswap, hstays, hactive], fun j ↦ ?_, fun j hj ↦ ?_, fun j v hv hne hnone htable ↦ ?_⟩
  · rintro ⟨j, key⟩ s
    by_cases hj : j = i
    · rw [hj, slotHolder_of_empty hmine]
      exact iff_of_false (by rintro ⟨⟩) fun hp ↦ hp.2 rfl
    · rw [slotHolder, hother j hj]
      exact (and_iff_left hj).symm
  · rw [hswap, hbit, h.mem_slots_iff]
    refine and_congr_right fun _ ↦ ⟨?_, ?_⟩
    · rintro hnot ⟨j, key⟩ hp rfl
      exact hnot ⟨key, hp⟩
    · rintro hgone ⟨key, hkey⟩
      exact hgone _ hkey rfl
  · by_cases hj : j = i
    · rw [hj, hmine]
      exact List.nodup_nil
    · rw [hother j hj]
      exact h.keys j
  · by_cases hji : j = i
    · rw [hji, hmine]
    · rw [hother j hji]
      exact h.few j hj
  · refine ⟨?_, ?_⟩
    · rw [mappedPage, hother j hne, hmachine]
      exact hnone
    · rw [HasTable, hroot, hmachine]
      exact htable

theorem exitTask (h : SwapInv k evicted) (i : ℕ) :
    SwapInv (swapExitTask k i) (evictedAfter k (swapExitTask k i) evicted) := by
  have h' := h.kernel.swapExitTask i
  rw [swapExitTask] at h' ⊢
  split_ifs at h' ⊢ with hoff
  · rw [evictedAfter, snapshot_eq_saved fun _ hp ↦ hp]
    exact h
  · exact h.givesUp h' (h.givesUp_exit (Bool.not_eq_false _ ▸ hoff) i rfl)

theorem userStore (h : SwapInv k evicted) {i : ℕ} (hcr3 : (k.tasks i).cr3 ≠ 0) (va : ℕ) (b : Byte) :
    SwapInv (Mm.userStore k i va b) (evictedAfter k (Mm.userStore k i va b) evicted) := by
  have h' := h.kernel.userStore hcr3 va b
  rcases h.kernel.userStore_cases hcr3 va b with heq | ⟨addr, heq, hnot⟩
  · rw [heq, evictedAfter, snapshot_eq_saved fun _ hp ↦ hp]
    exact h
  rw [heq] at h' ⊢
  have hnothing : evictedAfter k { k with machine := pokeByte k.machine addr b } evicted =
      evicted := snapshot_eq_saved fun _ hp ↦ hp
  rw [hnothing]
  have htables : ∀ g, IsTable 4 2 pteFrame k.machine.mem (rootOf k) g →
      (pokeByte k.machine addr b).mem g = k.machine.mem g := by
    intro g hg
    funext j
    refine if_neg fun hsame ↦ hnot ?_
    rw [← hsame.1]
    exact hg
  refine h.of_same h' (fun _ ↦ rfl) rfl rfl rfl rfl fun j v hv ↦ ⟨fun hnone ↦ ?_, fun htable ↦ ?_⟩
  · rw [mappedPage_eq h.kernel hv.isUserVa, Option.map_eq_none_iff] at hnone
    rw [mappedPage_eq h' hv.isUserVa, Option.map_eq_none_iff]
    exact (node_congr htables (treePath_pathOf hv.isUserVa)).trans hnone
  · obtain ⟨pt, hpt⟩ := htable
    exact ⟨pt, (node_congr htables (treePath_pathOf hv.isUserVa).tail).trans hpt⟩

/-- One step. -/
theorem step {w : SwapWatch} (h : SwapInv w.kernel w.evicted) {op : SwapOp} (hop : CanSwap w op) :
    SwapInv (swapStep w op).kernel (swapStep w op).evicted := by
  rw [swapStep]
  cases op with
  | swapOut i va => exact ((Evicts.refl h).out hop.1 hop.2).inv
  | swapIn i va => exact h.swapIn i va
  | prefetch i => exact h.prefetch i
  | reclaim => exact (Evicts.swapReclaim h).inv
  | exit i => exact h.exitTask i
  | store i va b => exact h.userStore hop va b
  | observe hist =>
    have hnothing : evictedAfter w.kernel (SwapOp.apply w.kernel (.observe hist)) w.evicted =
        w.evicted := snapshot_eq_saved fun _ hp ↦ hp
    simp only [hnothing]
    exact h.of_same (h.kernel.of_machine rfl rfl h.kernel.mem) (fun _ ↦ rfl) rfl rfl rfl rfl
      fun _ _ _ ↦ ⟨fun hnone ↦ hnone, fun htable ↦ htable⟩

/-! ### The accounts -/

theorem mem_allSlots (h : SwapInv k evicted) (s : ℕ) :
    s ∈ allSlots k ↔ ∃ p, slotHolder k p = some s := by
  rw [allSlots, List.mem_flatMap]
  constructor
  · rintro ⟨i, -, hi⟩
    obtain ⟨key, hkey⟩ := h.mem_slots_iff.mp hi
    exact ⟨(i, key), hkey⟩
  · rintro ⟨⟨i, key⟩, hp⟩
    have hlt : i < taskMax := by
      by_contra hge
      rw [slotHolder_of_empty (h.few i (not_lt.mp hge))] at hp
      cases hp
    exact ⟨i, List.mem_range.mpr hlt, h.mem_slots_iff.mpr ⟨key, hp⟩⟩

theorem nodup_allSlots (h : SwapInv k evicted) : (allSlots k).Nodup := by
  have hsame : ∀ i j e e', e ∈ (k.tasks i).swapMap → e' ∈ (k.tasks j).swapMap →
      e.slot = e'.slot → i = j ∧ e = e' := by
    intro i j e e' he he' hslot
    have hp : slotHolder k (i, e.vkey) = some e.slot := (slotOf_eq_some (h.keys i)).mpr he
    have hp' : slotHolder k (j, e'.vkey) = some e.slot := by
      rw [hslot]
      exact (slotOf_eq_some (h.keys j)).mpr he'
    obtain ⟨hi, hkey⟩ := Prod.mk.inj (h.pool.excl.own_inj _ _ _ hp hp')
    refine ⟨hi, ?_⟩
    cases e
    cases e'
    simp_all
  rw [allSlots, List.nodup_flatMap]
  constructor
  · intro i _
    refine List.Nodup.map_on (fun e he e' he' hslot ↦ (hsame i i e e' he he' hslot).2) ?_
    exact List.Nodup.of_map _ (h.keys i)
  · refine List.nodup_range.imp fun hne ↦ ?_
    intro s hs hs'
    obtain ⟨e, he, rfl⟩ := List.mem_map.mp hs
    obtain ⟨e', he', hslot⟩ := List.mem_map.mp hs'
    exact hne (hsame _ _ e e' he he' hslot.symm).1

/-- `swap_slots_used` counts the entries of all tasks. -/
theorem swapSlotsUsed_eq (h : SwapInv k evicted) :
    swapSlotsUsed k.swap =
      ((List.range taskMax).map fun i ↦ (k.tasks i).swapMap.length).sum := by
  rw [← length_allSlots, swapSlotsUsed]
  split_ifs with hoff
  · rw [allSlots]
    simp only [h.idle hoff, List.map_nil, List.flatMap_eq_nil_iff.mpr fun _ _ ↦ rfl,
      List.length_nil]
  · refine countP_marked_eq h.nodup_allSlots fun s ↦ ?_
    rw [h.mem_allSlots, ← h.pool.marked_iff s]
    exact ⟨fun hs ↦ ⟨h.bounded s hs, hs⟩, fun hs ↦ hs.2⟩

/-- A page that comes back is the page that went out. -/
theorem swapIn_evicted (h : SwapInv k evicted) {i va : ℕ} (hok : (Mm.swapIn k i va).1 = 0) :
    ∃ page, evicted (i, va / 4096) = some page ∧
      mappedPage (Mm.swapIn k i va).2 i va = some page := by
  rcases swapIn_cases h.kernel va (h.keys i) (h.htables i) with hfail | ⟨k', slot, heq, hin⟩
  · rw [hfail] at hok
    exact absurd hok (by decide : ¬ (-1 : ℤ) = 0)
  · rw [heq]
    exact ⟨k.swap.store slot, (h.pool.stored _ _ hin.entry).symm, hin.change.here⟩

end SwapInv

/-- What the swapper's books say: slots are marked exactly for the entries, which have slots and
pages of their own, their pages are not mapped, and a page that comes in is as it went out. -/
structure SwapAccounts (w : SwapWatch) : Prop where
  marked : ∀ s, bitGet w.kernel.swap.slots s = true ↔ s ∈ allSlots w.kernel
  slots : (allSlots w.kernel).Nodup
  keys : ∀ i, KeysDistinct (w.kernel.tasks i).swapMap
  unmapped : ∀ i, ∀ e ∈ (w.kernel.tasks i).swapMap, ∀ va, va / 4096 = e.vkey →
    vmmTranslate w.kernel.machine.mem (w.kernel.tasks i).cr3 va = 0
  used : swapSlotsUsed w.kernel.swap =
    ((List.range taskMax).map fun i ↦ (w.kernel.tasks i).swapMap.length).sum
  back : ∀ i va, (swapIn w.kernel i va).1 = 0 → ∃ page, w.evicted (i, va / 4096) = some page ∧
    mappedPage (swapIn w.kernel i va).2 i va = some page

theorem SwapInv.accounts {w : SwapWatch} (h : SwapInv w.kernel w.evicted) : SwapAccounts w where
  marked s := (h.pool.marked_iff s).trans (h.mem_allSlots s).symm
  slots := h.nodup_allSlots
  keys := h.keys
  unmapped i e he va hva := by
    have hheld : slotHolder w.kernel (i, va / 4096) = some e.slot := by
      rw [slotHolder, slotOf_eq_some (h.keys i), hva]
      exact he
    have hdata : IsDataVa va := by
      have hbase := isDataVa_of_slot h.kernel (p := (i, va / 4096)) (by rw [hheld]; rintro ⟨⟩)
      exact hbase.of_div_eq (Nat.mul_div_cancel _ (by decide))
    obtain ⟨hnone, pt, hpt⟩ := h.away i va hdata (by rw [hheld]; rintro ⟨⟩)
    have hcr3 : (w.kernel.tasks i).cr3 ≠ 0 := by
      intro hzero
      rw [rootOf, taskRoot, if_pos hzero, node_none] at hpt
      cases hpt
    by_contra hmapped
    rw [mappedPage, if_neg (not_or.mpr ⟨hcr3, hmapped⟩)] at hnone
    cases hnone
  used := h.swapSlotsUsed_eq
  back _ _ hok := h.swapIn_evicted hok

/-- From any state in which nothing is swapped out, however tasks write and pages of data are
swapped out and in, prefetched, reclaimed and dropped, the swapper's books are right. -/
theorem swapAccounts_of_run {k₀ : Kernel} (h : Unswapped k₀) {w : SwapWatch}
    (hrun : Run swapStep CanSwap ⟨k₀, fun _ ↦ none⟩ w) : SwapAccounts w :=
  SwapInv.accounts (hrun.invariant (fun w ↦ SwapInv w.kernel w.evicted) (.of_unswapped h)
    fun _ _ hinv hop ↦ hinv.step hop)

/-- A machine of 72 frames, the first 8 of them reserved. -/
def swapKernel : Kernel :=
  { smallKernel with
    machine :=
      { mem := fun _ _ ↦ 0
        pmm :=
          { bitmap := 0xFF :: List.replicate 8 0
            totalFrames := 72
            freeFrames := 64 } }
    bootPml4 := 0x1000 }

/-- Two tasks on it. -/
def twoTasks : Kernel := (schedSpawn (schedSpawn swapKernel [0x61] 0).2 [0x62] 0).2

theorem twoTasks_unswapped : Unswapped twoTasks := by
  have hboot : Booted swapKernel :=
    ⟨⟨by decide, by decide, by decide⟩, fun _ ↦ ⟨rfl, rfl, rfl, rfl, rfl, rfl⟩, by decide⟩
  have hstart : Unswapped swapKernel :=
    ⟨KernelInv.of_booted hboot, by decide, bitGet_replicate_zero 1, fun _ ↦ rfl⟩
  rw [twoTasks]
  exact (hstart.spawn (by decide) 0).spawn (by decide) 0

/-- The tasks write to their stacks and lose them to swap; the second gets its page back before the
first, which writes again and is swapped out again; the second ends. -/
def swapOps : List SwapOp :=
  [.store 1 userStackBase 0x41, .store 2 userStackBase 0x42, .swapOut 1 userStackBase,
    .swapOut 2 userStackBase, .swapOut 2 userScriptBase, .swapIn 2 userStackBase,
    .swapIn 1 (userStackBase + 8), .store 1 userStackBase 0x43, .swapOut 1 userStackBase, .exit 2]

/-- The theorem at a run in which a page goes out twice, and its return. -/
theorem swapAccounts_of_run_twoTasks :
    SwapAccounts (swapOps.foldl swapStep ⟨twoTasks, fun _ ↦ none⟩) ∧
      (swapIn (swapOps.foldl swapStep ⟨twoTasks, fun _ ↦ none⟩).kernel 1 userStackBase).1 = 0 := by
  have hrun : Admits swapStep CanSwap ⟨twoTasks, fun _ ↦ none⟩ swapOps ∧
      (swapIn (swapOps.foldl swapStep ⟨twoTasks, fun _ ↦ none⟩).kernel 1 userStackBase).1 = 0 := by
    decide +kernel
  exact ⟨swapAccounts_of_run twoTasks_unswapped (Run.refl.of_admits swapOps hrun.1), hrun.2⟩

end NoOsKernel.Mm
