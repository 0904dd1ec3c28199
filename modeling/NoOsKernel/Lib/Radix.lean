import NoOsKernel.Lib.Ownership

/-!
# Radix trees in a memory of frames

A forest of radix trees whose nodes are frames of words: a word decodes to the frame it points to,
if any, and a path, written from the leaf up, names the node it leads to. Each tree hangs below one
slot of its root. The nodes up to a depth, together with the holders of loose frames, claim frames
exclusively (`Lib.Exclusive`).

Exclusiveness makes the paths independent: a slot that is written belongs to one table, and a table
to one path, so that only this path sees the write (`node_write`). The rules for owners are the
moves of a page-table walker: writing a frame that is no table, linking a fresh empty table, giving
a leaf a loose frame, and clearing a leaf.
-/

set_option autoImplicit false
set_option relaxedAutoImplicit false

namespace NoOsKernel.Lib.Radix

variable {τ ε α : Type*}

/-- The frame at the end of a path, the last step first. -/
def node (dec : α → Option ℕ) (mem : ℕ → ℕ → α) (root : Option ℕ) : List ℕ → Option ℕ
  | [] => root
  | i :: p => (node dec mem root p).bind fun f ↦ dec (mem f i)

/-- The word in the last slot of a path. -/
def entry (dec : α → Option ℕ) (mem : ℕ → ℕ → α) (root : Option ℕ) : List ℕ → Option α
  | [] => none
  | i :: p => (node dec mem root p).map fun f ↦ mem f i

/-- The word in the last slot of a path, when it points somewhere. -/
def link (dec : α → Option ℕ) (mem : ℕ → ℕ → α) (root : Option ℕ) (p : List ℕ) : Option α :=
  (entry dec mem root p).filter fun w ↦ (dec w).isSome

theorem node_cons (dec : α → Option ℕ) (mem : ℕ → ℕ → α) (root : Option ℕ) (i : ℕ) (p : List ℕ) :
    node dec mem root (i :: p) = (link dec mem root (i :: p)).bind dec := by
  rw [node, link, entry]
  rcases node dec mem root p with - | f
  · rfl
  · rw [Option.bind_some, Option.map_some, Option.filter_some]
    rcases hdec : dec (mem f i) with - | g
    · rfl
    · exact hdec.symm

theorem link_eq_some {dec : α → Option ℕ} {mem : ℕ → ℕ → α} {root : Option ℕ} {i : ℕ}
    {p : List ℕ} {w : α} : link dec mem root (i :: p) = some w ↔
      ∃ f v, node dec mem root p = some f ∧ mem f i = w ∧ dec w = some v := by
  rw [link, entry, Option.filter_eq_some_iff, Option.map_eq_some_iff]
  constructor
  · rintro ⟨⟨f, hf, hw⟩, hsome⟩
    obtain ⟨v, hv⟩ := Option.isSome_iff_exists.mp hsome
    exact ⟨f, v, hf, hw, hv⟩
  · rintro ⟨f, v, hf, hw, hv⟩
    exact ⟨⟨f, hf, hw⟩, by rw [hv]; rfl⟩

theorem link_eq_none {dec : α → Option ℕ} {mem : ℕ → ℕ → α} {root : Option ℕ} {i : ℕ}
    {p : List ℕ} : link dec mem root (i :: p) = none ↔ node dec mem root (i :: p) = none := by
  rw [node_cons]
  rcases hlink : link dec mem root (i :: p) with - | w
  · exact iff_of_true rfl rfl
  · obtain ⟨f, v, -, -, hv⟩ := link_eq_some.1 hlink
    exact iff_of_false nofun (by rw [Option.bind_some, hv]; exact nofun)

/-- The paths of a tree of the given depth below slot `top` of its root. -/
def TreePath (depth top : ℕ) (p : List ℕ) : Prop :=
  p.length ≤ depth ∧ (p = [] ∨ p.getLast? = some top)

theorem TreePath.tail {depth top i : ℕ} {p : List ℕ} (h : TreePath depth top (i :: p)) :
    TreePath depth top p := by
  obtain ⟨hlen, hlast⟩ := h
  refine ⟨by rw [List.length_cons] at hlen; omega, ?_⟩
  cases p with
  | nil => exact Or.inl rfl
  | cons j q => simpa using hlast

theorem TreePath.length_tail {depth top i : ℕ} {p : List ℕ} (h : TreePath depth top (i :: p)) :
    p.length < depth := by
  have hlen := h.1
  rw [List.length_cons] at hlen
  omega

open scoped Classical in
/-- The owners of frames: the nodes of the trees, and the holders of loose frames. -/
noncomputable def owners (depth top : ℕ) (dec : α → Option ℕ) (mem : ℕ → ℕ → α)
    (root : τ → Option ℕ) (loose : ε → Option ℕ) : (τ × List ℕ) ⊕ ε → Option ℕ
  | .inl (t, p) => if TreePath depth top p then node dec mem (root t) p else none
  | .inr e => loose e

variable {depth top : ℕ} {dec : α → Option ℕ} {mem mem' : ℕ → ℕ → α} {root : τ → Option ℕ}
  {loose : ε → Option ℕ} {marked marked' : ℕ → Prop}

theorem owners_node {t : τ} {p : List ℕ} {f : ℕ} :
    owners depth top dec mem root loose (.inl (t, p)) = some f ↔
      TreePath depth top p ∧ node dec mem (root t) p = some f := by
  rw [owners]
  split_ifs with hp
  · exact (and_iff_right hp).symm
  · exact iff_of_false nofun fun h ↦ hp h.1

/-- A frame is a table: a node above the leaves. -/
def IsTable (depth top : ℕ) (dec : α → Option ℕ) (mem : ℕ → ℕ → α) (root : τ → Option ℕ)
    (f : ℕ) : Prop :=
  ∃ t p, TreePath depth top p ∧ p.length < depth ∧ node dec mem (root t) p = some f

/-- A loose frame is no table. -/
theorem not_isTable_of_loose (h : Exclusive (owners depth top dec mem root loose) marked) {e : ε}
    {f : ℕ} (he : loose e = some f) : ¬ IsTable depth top dec mem root f := by
  rintro ⟨t, p, hp, -, hnode⟩
  have hsame := h.own_inj (.inl (t, p)) (.inr e) f (owners_node.2 ⟨hp, hnode⟩) he
  exact absurd hsame nofun

/-- A leaf's frame is no table. -/
theorem not_isTable_of_leaf (h : Exclusive (owners depth top dec mem root loose) marked) {t : τ}
    {p : List ℕ} {f : ℕ} (hp : TreePath depth top p) (hlen : p.length = depth)
    (hnode : node dec mem (root t) p = some f) : ¬ IsTable depth top dec mem root f := by
  rintro ⟨t', p', hp', hlen', hnode'⟩
  have hsame := h.own_inj (.inl (t', p')) (.inl (t, p)) f (owners_node.2 ⟨hp', hnode'⟩)
    (owners_node.2 ⟨hp, hnode⟩)
  injection hsame with hsame
  injection hsame with _ hpath
  rw [hpath] at hlen'
  omega

/-- A frame that is not marked is no table. -/
theorem not_isTable_of_not_marked (h : Exclusive (owners depth top dec mem root loose) marked)
    {f : ℕ} (hf : ¬ marked f) : ¬ IsTable depth top dec mem root f := by
  rintro ⟨t, p, hp, -, hnode⟩
  exact hf (h.marked_of_own (.inl (t, p)) f (owners_node.2 ⟨hp, hnode⟩))

/-- No two paths lead to one table. -/
def Apart (depth top : ℕ) (dec : α → Option ℕ) (mem : ℕ → ℕ → α) (root : τ → Option ℕ) : Prop :=
  ∀ t p t' p' f, TreePath depth top p → p.length < depth → TreePath depth top p' →
    p'.length < depth → node dec mem (root t) p = some f → node dec mem (root t') p' = some f →
      t = t' ∧ p = p'

theorem apart_of_exclusive (h : Exclusive (owners depth top dec mem root loose) marked) :
    Apart depth top dec mem root := by
  intro t p t' p' f hp _ hp' _ hnode hnode'
  have hsame := h.own_inj (.inl (t, p)) (.inl (t', p')) f (owners_node.2 ⟨hp, hnode⟩)
    (owners_node.2 ⟨hp', hnode'⟩)
  rwa [Sum.inl.injEq, Prod.mk.injEq] at hsame

/-- Where the leaves are not owned, the tables reach down to the last owned level. -/
theorem apart_succ (h : Exclusive (owners depth top dec mem root loose) marked) :
    Apart (depth + 1) top dec mem root := by
  intro t p t' p' f hp hlen hp' hlen' hnode hnode'
  have hsame := h.own_inj (.inl (t, p)) (.inl (t', p')) f
    (owners_node.2 ⟨⟨Nat.le_of_lt_succ hlen, hp.2⟩, hnode⟩)
    (owners_node.2 ⟨⟨Nat.le_of_lt_succ hlen', hp'.2⟩, hnode'⟩)
  rwa [Sum.inl.injEq, Prod.mk.injEq] at hsame

/-! ### Writing frames that are no tables -/

section Frame

variable (hmem : ∀ g, IsTable depth top dec mem root g → mem' g = mem g)

include hmem

theorem node_congr {t : τ} {p : List ℕ} (hp : TreePath depth top p) :
    node dec mem' (root t) p = node dec mem (root t) p := by
  induction p with
  | nil => rfl
  | cons i p ih =>
    rw [node, node, ih hp.tail]
    rcases hnode : node dec mem (root t) p with - | g
    · rfl
    · rw [Option.bind_some, Option.bind_some, hmem g ⟨t, p, hp.tail, hp.length_tail, hnode⟩]

theorem entry_congr {t : τ} {p : List ℕ} (hp : TreePath depth top p) :
    entry dec mem' (root t) p = entry dec mem (root t) p := by
  cases p with
  | nil => rfl
  | cons i p =>
    rw [entry, entry, node_congr hmem hp.tail]
    rcases hnode : node dec mem (root t) p with - | g
    · rfl
    · rw [Option.map_some, Option.map_some, hmem g ⟨t, p, hp.tail, hp.length_tail, hnode⟩]

theorem link_congr {t : τ} {p : List ℕ} (hp : TreePath depth top p) :
    link dec mem' (root t) p = link dec mem (root t) p := by
  rw [link, link, entry_congr hmem hp]

theorem owners_congr :
    owners depth top dec mem' root loose = owners depth top dec mem root loose := by
  funext o
  cases o with
  | inr e => rfl
  | inl tp =>
    obtain ⟨t, p⟩ := tp
    simp only [owners]
    split_ifs with hp
    · exact node_congr hmem hp
    · rfl

end Frame

/-! ### Writing one slot of a table -/

/-- The write of word `w` into slot `i₀` of the table at path `p₀` of tree `t₀`. Below the leaves it
only links empty tables: the slot pointed nowhere, and the frame it points to afterwards is empty. -/
structure SlotWrite (depth top : ℕ) (dec : α → Option ℕ) (mem mem' : ℕ → ℕ → α)
    (root : τ → Option ℕ) (t₀ : τ) (i₀ : ℕ) (p₀ : List ℕ) (w : α) : Prop where
  path : TreePath depth top (i₀ :: p₀)
  table : ∃ f₀, node dec mem (root t₀) p₀ = some f₀ ∧ mem' f₀ i₀ = w ∧
    ∀ g i, IsTable depth top dec mem root g → ¬ (g = f₀ ∧ i = i₀) → mem' g i = mem g i
  below : p₀.length + 1 = depth ∨ (node dec mem (root t₀) (i₀ :: p₀) = none ∧
    ∀ v, dec w = some v → ∀ j, dec (mem' v j) = none)

/-- Above the leaves, a write is one of the tree without its leaves. -/
theorem SlotWrite.shallow {t₀ : τ} {i₀ : ℕ} {p₀ : List ℕ} {w : α}
    (hw : SlotWrite (depth + 1) top dec mem mem' root t₀ i₀ p₀ w) (hlen : p₀.length < depth) :
    SlotWrite depth top dec mem mem' root t₀ i₀ p₀ w := by
  obtain ⟨f₀, hf₀, hslot, hother⟩ := hw.table
  refine ⟨⟨hlen, hw.path.2⟩, ⟨f₀, hf₀, hslot, fun g i hg hne ↦ hother g i ?_ hne⟩, ?_⟩
  · obtain ⟨t, p, hp, hshort, hnode⟩ := hg
    exact ⟨t, p, ⟨Nat.le_succ_of_le hp.1, hp.2⟩, Nat.lt_succ_of_lt hshort, hnode⟩
  · rcases hw.below with hleaf | hbelow
    · omega
    · exact Or.inr hbelow

/-- A root is written in its top slot only. -/
theorem root_write {t₀ : τ} {i₀ : ℕ} {p₀ : List ℕ} {w : α}
    (hw : SlotWrite depth top dec mem mem' root t₀ i₀ p₀ w) (h : Apart depth top dec mem root)
    {t : τ} {c i : ℕ} (hroot : root t = some c) (hi : i ≠ top) :
    mem' c i = mem c i := by
  obtain ⟨f₀, hf₀, -, hother⟩ := hw.table
  have hdepth : 0 < depth := Nat.zero_lt_of_lt hw.path.length_tail
  have hpath : TreePath depth top [] := ⟨Nat.zero_le depth, Or.inl rfl⟩
  refine hother c i ⟨t, [], hpath, hdepth, hroot⟩ ?_
  rintro ⟨rfl, rfl⟩
  obtain ⟨-, hnil⟩ := h t₀ p₀ t [] c hw.path.tail hw.path.length_tail hpath hdepth hf₀ hroot
  have hlast := hw.path.2
  rw [hnil] at hlast
  exact hi (by simpa using hlast)

section Slot

variable [DecidableEq τ] {t₀ : τ} {i₀ : ℕ} {p₀ : List ℕ} {w : α}
  (hw : SlotWrite depth top dec mem mem' root t₀ i₀ p₀ w)

section Paths

variable (h : Apart depth top dec mem root)

include h hw

/-- Only the path of the slot sees the write. -/
theorem node_write {t : τ} {p : List ℕ} (hp : TreePath depth top p) :
    node dec mem' (root t) p =
      if t = t₀ ∧ p = i₀ :: p₀ then dec w else node dec mem (root t) p := by
  obtain ⟨f₀, hf₀, hslot, hother⟩ := hw.table
  induction p with
  | nil => rw [if_neg (by simp)]; rfl
  | cons i p ih =>
    rw [node, ih hp.tail]
    by_cases hdeep : t = t₀ ∧ p = i₀ :: p₀
    · -- below the new table there is nothing, before and after
      obtain ⟨rfl, rfl⟩ := hdeep
      have hlen := hp.length_tail
      rw [List.length_cons] at hlen
      rcases hw.below with hleaf | ⟨hnone, hempty⟩
      · omega
      · rw [if_pos ⟨rfl, rfl⟩, if_neg (by simp), node, hnone]
        rcases hdec : dec w with - | v
        · rfl
        · exact hempty v hdec i
    · rw [if_neg hdeep]
      rcases hnode : node dec mem (root t) p with - | g
      · have hne : ¬ (t = t₀ ∧ i :: p = i₀ :: p₀) := by
          rintro ⟨rfl, heq⟩
          injection heq with _ heq
          rw [heq, hf₀] at hnode
          exact absurd hnode nofun
        rw [if_neg hne, node, hnode]
        rfl
      · rw [Option.bind_some]
        by_cases hmine : t = t₀ ∧ i :: p = i₀ :: p₀
        · obtain ⟨rfl, heq⟩ := hmine
          injection heq with hi hpp
          rw [hpp, hf₀] at hnode
          injection hnode with hg
          rw [if_pos ⟨rfl, by rw [hi, hpp]⟩, ← hg, hi, hslot]
        · have hne : ¬ (g = f₀ ∧ i = i₀) := by
            rintro ⟨rfl, rfl⟩
            obtain ⟨ht, hpath⟩ := h t p t₀ p₀ g hp.tail hp.length_tail hw.path.tail
              hw.path.length_tail hnode hf₀
            exact hmine ⟨ht, by rw [hpath]⟩
          rw [if_neg hmine, node, hnode, Option.bind_some,
            hother g i ⟨t, p, hp.tail, hp.length_tail, hnode⟩ hne]

/-- The words after the write: those before, and the new one. -/
theorem link_write {t : τ} {i : ℕ} {p : List ℕ} (hp : TreePath depth top (i :: p)) :
    link dec mem' (root t) (i :: p) =
      if t = t₀ ∧ i :: p = i₀ :: p₀ then (some w).filter fun w ↦ (dec w).isSome
      else link dec mem (root t) (i :: p) := by
  obtain ⟨f₀, hf₀, hslot, hother⟩ := hw.table
  rw [link, entry, node_write hw h hp.tail]
  by_cases hdeep : t = t₀ ∧ p = i₀ :: p₀
  · -- the words of a new table point nowhere
    obtain ⟨rfl, rfl⟩ := hdeep
    have hlen := hp.length_tail
    rw [List.length_cons] at hlen
    rcases hw.below with hleaf | ⟨hnone, hempty⟩
    · omega
    · have hold : link dec mem (root t) (i :: i₀ :: p₀) = none :=
        link_eq_none.2 (by rw [node, hnone]; rfl)
      rw [if_pos ⟨rfl, rfl⟩, if_neg (by simp), hold]
      rcases hdec : dec w with - | v
      · rfl
      · rw [Option.map_some, Option.filter_some, hempty v hdec i]
        rfl
  · rw [if_neg hdeep, link, entry]
    rcases hnode : node dec mem (root t) p with - | g
    · rw [if_neg ?_]
      · rfl
      · rintro ⟨rfl, heq⟩
        rw [(List.cons.inj heq).2, hf₀] at hnode
        exact absurd hnode nofun
    · rw [Option.map_some, Option.map_some]
      by_cases hmine : t = t₀ ∧ i :: p = i₀ :: p₀
      · obtain ⟨rfl, heq⟩ := hmine
        obtain ⟨rfl, rfl⟩ := List.cons.inj heq
        rw [hf₀, Option.some.injEq] at hnode
        rw [if_pos ⟨rfl, rfl⟩, ← hnode, hslot]
      · rw [if_neg hmine, hother g i ⟨t, p, hp.tail, hp.length_tail, hnode⟩ ?_]
        rintro ⟨rfl, rfl⟩
        obtain ⟨ht, hpath⟩ := h t p t₀ p₀ g hp.tail hp.length_tail hw.path.tail
          hw.path.length_tail hnode hf₀
        exact hmine ⟨ht, by rw [hpath]⟩

end Paths

variable (h : Exclusive (owners depth top dec mem root loose) marked)

include h hw

/-- A claim after the write is a claim before, or the new one. -/
theorem owners_write {o : (τ × List ℕ) ⊕ ε} {k : ℕ}
    (ho : owners depth top dec mem' root loose o = some k) :
    (o ≠ .inl (t₀, i₀ :: p₀) ∧ owners depth top dec mem root loose o = some k) ∨
      (o = .inl (t₀, i₀ :: p₀) ∧ dec w = some k) := by
  cases o with
  | inr e => exact Or.inl ⟨nofun, ho⟩
  | inl tp =>
    obtain ⟨t, p⟩ := tp
    obtain ⟨hp, hnode⟩ := owners_node.1 ho
    rw [node_write hw (apart_of_exclusive h) hp] at hnode
    split_ifs at hnode with hmine
    · exact Or.inr ⟨by rw [hmine.1, hmine.2], hnode⟩
    · refine Or.inl ⟨fun heq ↦ ?_, owners_node.2 ⟨hp, hnode⟩⟩
      injection heq with heq
      injection heq with ht hpath
      exact hmine ⟨ht, hpath⟩

/-- Linking a fresh empty table. -/
theorem exclusive_link {v : ℕ} (hv : dec w = some v) (hfresh : ¬ marked v)
    (hmarked : ∀ k, marked k → marked' k) (hv' : marked' v) :
    Exclusive (owners depth top dec mem' root loose) marked' := by
  refine h.take (o := .inl (t₀, i₀ :: p₀)) hfresh (fun o k ho ↦ ?_) hmarked hv'
  rcases owners_write hw h ho with ⟨-, hold⟩ | ⟨heq, hk⟩
  · exact Or.inl hold
  · rw [hv] at hk
    injection hk with hk
    exact Or.inr ⟨heq, hk.symm⟩

/-- Clearing a slot gives up the frame it pointed to. -/
theorem exclusive_clear (hnone : dec w = none) :
    Exclusive (owners depth top dec mem' root loose) marked := by
  refine h.mono (fun o k ho ↦ ?_) fun _ hk ↦ hk
  rcases owners_write hw h ho with ⟨-, hold⟩ | ⟨-, hk⟩
  · exact hold
  · rw [hnone] at hk
    exact absurd hk nofun

/-- Clearing a slot whose frame loses its mark. -/
theorem exclusive_clear_free (hnone : dec w = none) {f : ℕ}
    (hf : node dec mem (root t₀) (i₀ :: p₀) = some f) (hmarked : ∀ k ≠ f, marked k → marked' k) :
    Exclusive (owners depth top dec mem' root loose) marked' := by
  refine h.release (fun o ↦ o = .inl (t₀, i₀ :: p₀)) (fun o k ho ↦ ?_) fun k hk ↦ ?_
  · rcases owners_write hw h ho with ⟨hne, hold⟩ | ⟨-, hk⟩
    · exact ⟨hold, hne⟩
    · rw [hnone] at hk
      exact absurd hk nofun
  · by_cases hkf : k = f
    · exact Or.inr ⟨_, rfl, owners_node.2 ⟨hw.path, by rw [hf, hkf]⟩⟩
    · exact Or.inl (hmarked k hkf hk)

/-- A slot takes a frame that was loose. -/
theorem exclusive_attach {e : ε} {v : ℕ} (hv : dec w = some v) (he : loose e = some v)
    {loose' : ε → Option ℕ} (hloose : ∀ e' k, loose' e' = some k → e' ≠ e ∧ loose e' = some k) :
    Exclusive (owners depth top dec mem' root loose') marked := by
  classical
  have hold : ∀ o k, owners depth top dec mem' root loose' o = some k →
      (o ≠ .inl (t₀, i₀ :: p₀) ∧ o ≠ .inr e ∧ owners depth top dec mem root loose o = some k) ∨
        (o = .inl (t₀, i₀ :: p₀) ∧ k = v) := by
    intro o k ho
    cases o with
    | inr e' =>
      obtain ⟨hne, hk⟩ := hloose e' k ho
      exact Or.inl ⟨nofun, fun heq ↦ hne (Sum.inr.inj heq), hk⟩
    | inl tp =>
      rcases owners_write hw h (o := .inl tp) ho with ⟨hne, hk⟩ | ⟨heq, hk⟩
      · exact Or.inl ⟨hne, nofun, hk⟩
      · rw [hv] at hk
        exact Or.inr ⟨heq, (Option.some.inj hk).symm⟩
  refine h.reassign (fun o ↦ if o = .inl (t₀, i₀ :: p₀) then .inr e else o) (fun o k ho ↦ ?_)
    (fun o o' k ho ho' hsame ↦ ?_) fun _ hk ↦ hk
  · rcases hold o k ho with ⟨hne, -, hk⟩ | ⟨rfl, rfl⟩
    · rwa [if_neg hne]
    · rw [if_pos rfl]
      exact he
  · rcases hold o k ho with ⟨hne, hloose, -⟩ | ⟨rfl, -⟩
    · rcases hold o' k ho' with ⟨hne', -, -⟩ | ⟨rfl, -⟩
      · rwa [if_neg hne, if_neg hne'] at hsame
      · rw [if_neg hne, if_pos rfl] at hsame
        exact absurd hsame hloose
    · rcases hold o' k ho' with ⟨hne', hloose', -⟩ | ⟨rfl, -⟩
      · rw [if_pos rfl, if_neg hne'] at hsame
        exact absurd hsame.symm hloose'
      · rfl

end Slot

/-! ### Planting and felling a tree -/

theorem node_none (p : List ℕ) : node dec mem none p = none := by
  induction p with
  | nil => rfl
  | cons i p ih => rw [node, ih, Option.bind_none]

/-- Below an empty top slot there is nothing. -/
theorem node_of_empty_top {c : ℕ} (htop : dec (mem c top) = none) {p : List ℕ}
    (hp : TreePath depth top p) (hne : p ≠ []) : node dec mem (some c) p = none := by
  induction p with
  | nil => exact absurd rfl hne
  | cons i p ih =>
    rw [node]
    cases p with
    | nil =>
      have hi : i = top := by simpa using hp.2
      rw [hi, node, Option.bind_some, htop]
    | cons j q => rw [ih hp.tail (by simp), Option.bind_none]

section Forest

variable [DecidableEq τ] (h : Exclusive (owners depth top dec mem root loose) marked)

include h

/-- A fresh root with an empty top slot. -/
theorem exclusive_plant {t : τ} {c : ℕ} (hfresh : ¬ marked c)
    (hmem : ∀ g ≠ c, mem' g = mem g) (htop : dec (mem' c top) = none)
    (hmarked : ∀ k, marked k → marked' k) (hc : marked' c) :
    Exclusive (owners depth top dec mem' (Function.update root t (some c)) loose) marked' := by
  have hkeep : ∀ g, IsTable depth top dec mem root g → mem' g = mem g := by
    intro g hg
    refine hmem g fun heq ↦ ?_
    rw [heq] at hg
    exact not_isTable_of_not_marked h hfresh hg
  refine h.take (o := .inl (t, [])) hfresh (fun o k ho ↦ ?_) hmarked hc
  cases o with
  | inr e => exact Or.inl ho
  | inl tp =>
    obtain ⟨t', p⟩ := tp
    obtain ⟨hp, hnode⟩ := owners_node.1 ho
    by_cases ht : t' = t
    · subst ht
      rw [Function.update_self] at hnode
      cases p with
      | nil => exact Or.inr ⟨rfl, (Option.some.inj hnode).symm⟩
      | cons i p =>
        rw [node_of_empty_top htop hp (List.cons_ne_nil i p)] at hnode
        exact absurd hnode nofun
    · rw [Function.update_of_ne ht, node_congr hkeep hp] at hnode
      exact Or.inl (owners_node.2 ⟨hp, hnode⟩)

/-- A tree is given up, and frames of it may lose their marks. -/
theorem exclusive_fell {t : τ} (hmarked : ∀ k, marked k → marked' k ∨
      ∃ p, TreePath depth top p ∧ node dec mem (root t) p = some k) :
    Exclusive (owners depth top dec mem (Function.update root t none) loose) marked' := by
  refine h.release (fun o ↦ ∃ p, o = .inl (t, p)) (fun o k ho ↦ ?_) fun k hk ↦ ?_
  · cases o with
    | inr e => exact ⟨ho, nofun⟩
    | inl tp =>
      obtain ⟨t', p⟩ := tp
      obtain ⟨hp, hnode⟩ := owners_node.1 ho
      by_cases ht : t' = t
      · rw [ht, Function.update_self, node_none] at hnode
        exact absurd hnode nofun
      · rw [Function.update_of_ne ht] at hnode
        refine ⟨owners_node.2 ⟨hp, hnode⟩, ?_⟩
        rintro ⟨q, hq⟩
        rw [Sum.inl.injEq, Prod.mk.injEq] at hq
        exact ht hq.1
  · rcases hmarked k hk with hleft | ⟨p, hp, hnode⟩
    · exact Or.inl hleft
    · exact Or.inr ⟨.inl (t, p), ⟨p, rfl⟩, owners_node.2 ⟨hp, hnode⟩⟩

end Forest

end NoOsKernel.Lib.Radix
