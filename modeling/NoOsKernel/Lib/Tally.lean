import Mathlib.Data.List.Nodup
import Mathlib.Tactic.Common

/-!
# Tallies

A tally keeps one candidate for each value it has seen, with the number of sightings and a stamp,
and `pick` returns the candidate seen most often, the larger stamp deciding between equals. `note`
enters a sighting and overwrites the stamp. So the stamp that is left is the one of the sighting
that was entered last: `Tallied` says that of a tally of a stream that is read from its end to its
beginning, and `pick_tally` which value wins.
-/

set_option autoImplicit false
set_option relaxedAutoImplicit false

namespace NoOsKernel.Lib.Tally

variable {α : Type*} [DecidableEq α]

structure Candidate (α : Type*) where
  value : α
  count : ℕ
  stamp : ℕ

/-- One more sighting of a value. -/
def note (cands : List (Candidate α)) (x : α) (stamp : ℕ) : List (Candidate α) :=
  match cands.findIdx? fun c ↦ c.value == x with
  | none => cands ++ [⟨x, 1, stamp⟩]
  | some k => cands.modify k fun c ↦ { c with count := c.count + 1, stamp := stamp }

omit [DecidableEq α] in
/-- The better of two candidates. -/
def better (best c : Candidate α) : Candidate α :=
  if best.count < c.count ∨ (c.count = best.count ∧ best.stamp < c.stamp) then c else best

/-- The best candidate. -/
def pick : List (Candidate α) → Option α
  | [] => none
  | c :: rest => some (rest.foldl better c).value

/-- The tally of a stream of sightings that is read from its end. -/
def tally (seen : List (α × ℕ)) : List (Candidate α) :=
  seen.foldr (fun p cands ↦ note cands p.1 p.2) []

/-- The candidates of a stream: each has the number of its sightings and the stamp of the first. -/
structure Tallied (seen : List (α × ℕ)) (cands : List (Candidate α)) : Prop where
  nodup : (cands.map Candidate.value).Nodup
  mem_iff : ∀ c, c ∈ cands ↔ c.count = (seen.map Prod.fst).count c.value ∧
    (seen.find? fun p ↦ p.1 = c.value) = some (c.value, c.stamp)

/-! ### Sightings -/

/-- A value that has a candidate is counted there, and other candidates stay as they are. -/
theorem note_of_mem {cands : List (Candidate α)} (hnodup : (cands.map Candidate.value).Nodup)
    {x : α} (hx : x ∈ cands.map Candidate.value) (stamp : ℕ) :
    note cands x stamp = cands.map fun c ↦
      if c.value = x then { c with count := c.count + 1, stamp := stamp } else c := by
  induction cands with
  | nil => exact absurd hx List.not_mem_nil
  | cons c cands ih =>
    rw [List.map_cons, List.nodup_cons] at hnodup
    by_cases hc : c.value = x
    · have hrest : ∀ d ∈ cands, d.value ≠ x := by
        rintro d hd rfl
        exact hnodup.1 (hc ▸ List.mem_map_of_mem hd)
      have hfind : (c :: cands).findIdx? (fun c ↦ c.value == x) = some 0 := by
        rw [List.findIdx?_cons, if_pos (beq_iff_eq.mpr hc)]
      rw [note, hfind, List.map_cons, if_pos hc]
      refine congrArg (_ :: ·) ?_
      exact (List.map_id _).symm.trans (List.map_congr_left fun d hd ↦ (if_neg (hrest d hd)).symm)
    · have hmem : x ∈ cands.map Candidate.value := by
        rw [List.map_cons, List.mem_cons] at hx
        exact hx.resolve_left fun h ↦ hc h.symm
      have hrest := ih hnodup.2 hmem
      rw [note] at hrest ⊢
      rw [List.findIdx?_cons, if_neg (by simpa using hc), List.map_cons, if_neg hc, ← hrest]
      cases cands.findIdx? fun c ↦ c.value == x with
      | none => rfl
      | some k => rfl

/-- A new value becomes a candidate. -/
theorem note_of_notMem {cands : List (Candidate α)} {x : α}
    (hx : x ∉ cands.map Candidate.value) (stamp : ℕ) :
    note cands x stamp = cands ++ [⟨x, 1, stamp⟩] := by
  have hfind : cands.findIdx? (fun c ↦ c.value == x) = none := by
    rw [List.findIdx?_eq_none_iff]
    intro c hc
    rw [beq_eq_false_iff_ne]
    rintro rfl
    exact hx (List.mem_map_of_mem hc)
  rw [note, hfind]

theorem Tallied.value_mem_iff {seen : List (α × ℕ)} {cands : List (Candidate α)}
    (htally : Tallied seen cands) {x : α} :
    x ∈ cands.map Candidate.value ↔ x ∈ seen.map Prod.fst := by
  constructor
  · rintro hx
    obtain ⟨c, hc, rfl⟩ := List.mem_map.mp hx
    exact List.mem_map.mpr ⟨_, List.mem_of_find?_eq_some ((htally.mem_iff c).mp hc).2, rfl⟩
  · intro hx
    obtain ⟨p, hp, rfl⟩ := List.mem_map.mp hx
    obtain ⟨q, hq⟩ : ∃ q, (seen.find? fun q ↦ q.1 = p.1) = some q := by
      rw [← Option.isSome_iff_exists, List.find?_isSome]
      exact ⟨p, hp, decide_eq_true rfl⟩
    have hvalue : q.1 = p.1 := by
      have hfound := List.find?_some hq
      exact of_decide_eq_true hfound
    refine List.mem_map.mpr ⟨⟨p.1, (seen.map Prod.fst).count p.1, q.2⟩, ?_, rfl⟩
    refine (htally.mem_iff _).mpr ⟨rfl, ?_⟩
    rw [hq, ← hvalue]

/-- What the first sighting of a stream adds to the candidates. -/
theorem seen_cons_iff (seen : List (α × ℕ)) (x : α) (stamp : ℕ) (c : Candidate α) :
    (c.count = (((x, stamp) :: seen).map Prod.fst).count c.value ∧
        (((x, stamp) :: seen).find? fun p ↦ p.1 = c.value) = some (c.value, c.stamp)) ↔
      if c.value = x then c.count = (seen.map Prod.fst).count x + 1 ∧ c.stamp = stamp
      else c.count = (seen.map Prod.fst).count c.value ∧
        (seen.find? fun p ↦ p.1 = c.value) = some (c.value, c.stamp) := by
  obtain ⟨value, count, stamp'⟩ := c
  by_cases hx : value = x
  · subst hx
    simp [eq_comm]
  · have hne : ¬ x = value := fun h ↦ hx h.symm
    simp [hx, hne]

/-- The sighting that is entered last is the first of the stream. -/
theorem Tallied.note {seen : List (α × ℕ)} {cands : List (Candidate α)}
    (htally : Tallied seen cands) (x : α) (stamp : ℕ) :
    Tallied ((x, stamp) :: seen) (note cands x stamp) := by
  by_cases hx : x ∈ cands.map Candidate.value
  · rw [note_of_mem htally.nodup hx]
    constructor
    · rw [List.map_map]
      convert htally.nodup using 2
      funext c
      rw [Function.comp_apply]
      split_ifs <;> rfl
    · intro c
      rw [seen_cons_iff, List.mem_map]
      split_ifs with hc
      · constructor
        · rintro ⟨d, hd, rfl⟩
          split_ifs at hc ⊢ with hdx
          · rw [← hdx, ((htally.mem_iff d).mp hd).1]
            exact ⟨rfl, rfl⟩
          · exact absurd hc hdx
        · rintro ⟨hcount, hstamp⟩
          obtain ⟨d, hd, hdx⟩ := List.mem_map.mp hx
          refine ⟨d, hd, ?_⟩
          rw [if_pos hdx, ((htally.mem_iff d).mp hd).1, hdx, ← hcount, ← hstamp, ← hc]
      · rw [← htally.mem_iff]
        constructor
        · rintro ⟨d, hd, rfl⟩
          split_ifs at hc ⊢ with hdx
          · exact absurd hdx hc
          · exact hd
        · exact fun hmem ↦ ⟨c, hmem, if_neg hc⟩
  · rw [note_of_notMem hx]
    constructor
    · rw [List.map_append, List.map_singleton]
      exact List.Nodup.append htally.nodup (List.nodup_singleton x) (List.disjoint_singleton.mpr hx)
    · intro c
      rw [seen_cons_iff, List.mem_append, List.mem_singleton]
      have hnone : (seen.map Prod.fst).count x = 0 :=
        List.count_eq_zero_of_not_mem (mt htally.value_mem_iff.mpr hx)
      split_ifs with hc
      · constructor
        · rintro (hmem | rfl)
          · exact absurd (hc ▸ List.mem_map_of_mem hmem) hx
          · exact ⟨congrArg (· + 1) hnone.symm, rfl⟩
        · rintro ⟨hcount, hstamp⟩
          right
          rw [← hc, ← hstamp]
          rw [hnone] at hcount
          exact congrArg (Candidate.mk c.value · c.stamp) hcount
      · rw [← htally.mem_iff, or_iff_left]
        rintro rfl
        exact hc rfl

theorem tallied_tally (seen : List (α × ℕ)) : Tallied seen (tally seen) := by
  induction seen with
  | nil =>
    refine ⟨List.nodup_nil, fun c ↦ ⟨fun h ↦ absurd h List.not_mem_nil, fun h ↦ ?_⟩⟩
    exact absurd h.2 (by simp)
  | cons p seen ih => exact ih.note p.1 p.2

/-! ### The best candidate -/

omit [DecidableEq α] in
/-- A candidate is at least as good as another one. -/
def AtLeast (c d : Candidate α) : Prop :=
  d.count < c.count ∨ (d.count = c.count ∧ d.stamp ≤ c.stamp)

omit [DecidableEq α] in
theorem AtLeast.trans {c d e : Candidate α} (hcd : AtLeast c d) (hde : AtLeast d e) :
    AtLeast c e := by
  unfold AtLeast at *
  omega

omit [DecidableEq α] in
theorem better_spec (best c : Candidate α) :
    (better best c = best ∨ better best c = c) ∧
      AtLeast (better best c) best ∧ AtLeast (better best c) c := by
  unfold better AtLeast
  split_ifs with hless
  · exact ⟨Or.inr rfl, by omega, Or.inr ⟨rfl, Nat.le_refl _⟩⟩
  · exact ⟨Or.inl rfl, Or.inr ⟨rfl, Nat.le_refl _⟩, by omega⟩

omit [DecidableEq α] in
theorem foldl_better_spec (best : Candidate α) (rest : List (Candidate α)) :
    rest.foldl better best ∈ best :: rest ∧
      ∀ d ∈ best :: rest, AtLeast (rest.foldl better best) d := by
  induction rest generalizing best with
  | nil =>
    refine ⟨List.mem_singleton.mpr rfl, fun d hd ↦ ?_⟩
    rw [List.mem_singleton.mp hd]
    exact Or.inr ⟨rfl, Nat.le_refl _⟩
  | cons c rest ih =>
    obtain ⟨hmem, hbest⟩ := ih (better best c)
    obtain ⟨hone, hleft, hright⟩ := better_spec best c
    have hwin := hbest _ List.mem_cons_self
    rw [List.foldl_cons]
    constructor
    · obtain heq | hrest := List.mem_cons.mp hmem
      · rw [heq]
        obtain h | h := hone
        · rw [h]
          exact List.mem_cons_self
        · rw [h]
          exact List.mem_cons_of_mem _ List.mem_cons_self
      · exact List.mem_cons_of_mem _ (List.mem_cons_of_mem _ hrest)
    · intro d hd
      obtain rfl | hd := List.mem_cons.mp hd
      · exact hwin.trans hleft
      · obtain rfl | hd := List.mem_cons.mp hd
        · exact hwin.trans hright
        · exact hbest d (List.mem_cons_of_mem _ hd)

omit [DecidableEq α] in
/-- What is picked is at least as good as every candidate. -/
theorem pick_spec {cands : List (Candidate α)} (hne : cands ≠ []) :
    ∃ c ∈ cands, pick cands = some c.value ∧ ∀ d ∈ cands, AtLeast c d := by
  cases cands with
  | nil => exact absurd rfl hne
  | cons c rest =>
    obtain ⟨hmem, hbest⟩ := foldl_better_spec c rest
    exact ⟨_, hmem, rfl, hbest⟩

/-! ### Streams -/

/-- The value occurs at least as often as every other one, and where it occurs as often it stands at
least as late. -/
def Wins (place : α → ℕ) (xs : List α) (y : α) : Prop :=
  y ∈ xs ∧ ∀ z ∈ xs, xs.count z < xs.count y ∨ (xs.count z = xs.count y ∧ place z ≤ place y)

/-- Where a value occurs last. -/
def lastIdxOf (xs : List α) (y : α) : ℕ := xs.length - (xs.reverse.idxOf y + 1)

/-- If places tell the values apart, there is one winner. -/
theorem Wins.unique {place : α → ℕ} {xs : List α} {y z : α} (hy : Wins place xs y)
    (hz : Wins place xs z) (hplace : place y = place z → y = z) : y = z := by
  have hyz := hy.2 z hz.1
  have hzy := hz.2 y hy.1
  exact hplace (by omega)

theorem Wins.unique_idxOf {xs : List α} {y z : α} (hy : Wins (xs.idxOf ·) xs y)
    (hz : Wins (xs.idxOf ·) xs z) : y = z :=
  hy.unique hz fun heq ↦ (List.idxOf_inj hy.1).mp heq

/-- The earlier of two first sightings has the smaller stamp. -/
theorem idxOf_le_of_stamp_le {seen : List (α × ℕ)} (hseen : seen.Pairwise fun p q ↦ p.2 < q.2)
    {y z : α} {s t : ℕ} (hy : (seen.find? fun p ↦ p.1 = y) = some (y, s))
    (hz : (seen.find? fun p ↦ p.1 = z) = some (z, t)) (hle : s ≤ t) :
    (seen.map Prod.fst).idxOf y ≤ (seen.map Prod.fst).idxOf z := by
  induction seen with
  | nil => exact Nat.le_refl _
  | cons p seen ih =>
    obtain ⟨hfirst, hrest⟩ := List.pairwise_cons.mp hseen
    rw [List.map_cons, List.idxOf_cons, List.idxOf_cons]
    by_cases hpy : p.1 = y
    · rw [hpy, beq_self_eq_true, cond_true]
      exact Nat.zero_le _
    · rw [List.find?_cons_of_neg (by simpa using hpy)] at hy
      by_cases hpz : p.1 = z
      · rw [List.find?_cons_of_pos (by simpa using hpz), Option.some_inj] at hz
        have hlt := hfirst _ (List.mem_of_find?_eq_some hy)
        rw [hz] at hlt
        exact absurd hlt (Nat.not_lt.mpr hle)
      · rw [List.find?_cons_of_neg (by simpa using hpz)] at hz
        rw [beq_false_of_ne hpy, beq_false_of_ne hpz, cond_false, cond_false]
        exact Nat.succ_le_succ (ih hrest hy hz)

/-- The tally of a stream with growing stamps picks the value seen most often that was first seen
last. -/
theorem pick_tally {seen : List (α × ℕ)} (hseen : seen.Pairwise fun p q ↦ p.2 < q.2)
    (hne : seen.map Prod.fst ≠ []) :
    ∃ y, pick (tally seen) = some y ∧
      Wins ((seen.map Prod.fst).idxOf ·) (seen.map Prod.fst) y := by
  have htally := tallied_tally seen
  have hcands : tally seen ≠ [] := by
    intro hnil
    obtain ⟨x, hx⟩ := List.exists_mem_of_ne_nil _ hne
    have hmem := htally.value_mem_iff.mpr hx
    rw [hnil] at hmem
    exact List.not_mem_nil hmem
  obtain ⟨c, hc, hpick, hbest⟩ := pick_spec hcands
  obtain ⟨hcount, hfind⟩ := (htally.mem_iff c).mp hc
  refine ⟨c.value, hpick, htally.value_mem_iff.mp (List.mem_map_of_mem hc), ?_⟩
  intro z hz
  obtain ⟨d, hd, rfl⟩ := List.mem_map.mp (htally.value_mem_iff.mpr hz)
  obtain ⟨hcount', hfind'⟩ := (htally.mem_iff d).mp hd
  rw [← hcount, ← hcount']
  obtain hless | ⟨heq, hle⟩ := hbest d hd
  · exact Or.inl hless
  · exact Or.inr ⟨heq, idxOf_le_of_stamp_le hseen hfind' hfind hle⟩

/-- A tally of nothing picks nothing. -/
theorem pick_tally_eq_none {seen : List (α × ℕ)} (hnil : seen.map Prod.fst = []) :
    pick (tally seen) = none := by
  rw [List.map_eq_nil_iff.mp hnil]
  rfl

/-! ### First and last occurrences -/

/-- Some value wins by its last occurrence and by its first occurrence too. -/
def FirstsAgree (xs : List α) : Prop :=
  ∃ y, Wins (lastIdxOf xs) xs y ∧ Wins (xs.idxOf ·) xs y

/-- The winner by first occurrences wins by last occurrences exactly if the two agree. -/
theorem wins_lastIdxOf_iff {xs : List α} {y : α} (hy : Wins (xs.idxOf ·) xs y) :
    Wins (lastIdxOf xs) xs y ↔ FirstsAgree xs := by
  constructor
  · exact fun hlast ↦ ⟨y, hlast, hy⟩
  · rintro ⟨z, hlast, hfirst⟩
    rwa [hy.unique_idxOf hfirst]

end NoOsKernel.Lib.Tally
