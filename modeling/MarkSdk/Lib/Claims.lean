import Mathlib.Data.List.Basic
import Mathlib.Data.List.Induction

/-!
Places claimed in order: whoever comes first keeps a place.

Each item is read, unless an item that has claimed a place before it clashes with
it; an item claims its place when it is read as something. Reading can fail, and
then the whole run fails. What is claimed up to an item is known without a run
(`claimed`), so that a run comes to its end exactly when each item that nothing
claimed before it clashes with can be read (`claimAll_ok_iff`).
-/

namespace MarkSdk.Lib

variable {α β ε : Type} (clash : α → α → Prop) [DecidableRel clash]

section Run

variable (read : α → Except ε (Option β))

def claim (held : List (α × β)) (x : α) : Except ε (List (α × β)) :=
  if ∃ h ∈ held, clash h.1 x then .ok held
  else
    match read x with
    | .error e => .error e
    | .ok none => .ok held
    | .ok (some y) => .ok (held ++ [(x, y)])

end Run

/-- One item more: it claims its place when it `names` something and nothing
clashes with it. -/
def claimNext (names : α → Prop) [DecidablePred names] (held : List α) (x : α) : List α :=
  if names x ∧ ∀ h ∈ held, ¬ clash h x then held ++ [x] else held

/-- The items that claim their places. -/
def claimed (names : α → Prop) [DecidablePred names] (xs : List α) : List α :=
  xs.foldl (claimNext clash names) []

/-- Every item that nothing claimed before it clashes with is legible. -/
def AllLegible (names legible : α → Prop) [DecidablePred names] (xs : List α) : Prop :=
  ∀ front x back, xs = front ++ x :: back →
    (∀ h ∈ claimed clash names front, ¬ clash h x) → legible x

section Spec

variable {clash} {read : α → Except ε (Option β)} {names legible : α → Prop}
  [DecidablePred names] {held held' : List (α × β)} {xs : List α} {x : α}

theorem claimed_concat (xs : List α) (x : α) :
    claimed clash names (xs ++ [x]) = claimNext clash names (claimed clash names xs) x := by
  rw [claimed, List.foldl_append]
  rfl

theorem allLegible_concat :
    AllLegible clash names legible (xs ++ [x]) ↔ AllLegible clash names legible xs ∧
      ((∀ h ∈ claimed clash names xs, ¬ clash h x) → legible x) := by
  constructor
  · intro h
    refine ⟨fun front y back hxs => h front y (back ++ [x]) ?_, h xs x [] rfl⟩
    rw [hxs, List.append_assoc, List.cons_append]
  · rintro ⟨hxs, hx⟩ front y back heq
    rcases List.eq_nil_or_concat back with rfl | ⟨back, z, rfl⟩
    · obtain ⟨rfl, hlast⟩ := List.append_inj' heq rfl
      obtain rfl := List.singleton_inj.mp hlast
      exact hx
    · rw [List.concat_eq_append, ← List.cons_append, ← List.append_assoc] at heq
      exact hxs front y back (List.append_inj' heq rfl).1

/-- An item that clashes with a place is passed over. -/
theorem claim_of_clash (h : ∃ h ∈ held, clash h.1 x) : claim clash read held x = .ok held := if_pos h

/-- Any other item is read. -/
theorem claim_of_free (h : ∀ h ∈ held, ¬ clash h.1 x) :
    claim clash read held x =
      match read x with
      | .error e => .error e
      | .ok none => .ok held
      | .ok (some y) => .ok (held ++ [(x, y)]) := by
  rw [claim, if_neg]
  rintro ⟨h', hmem, hclash⟩
  exact h h' hmem hclash

/-- What is claimed by a run. -/
structure Claimed (clash : α → α → Prop) (read : α → Except ε (Option β)) (xs : List α)
    (held : List (α × β)) : Prop where
  mem : ∀ h ∈ held, h.1 ∈ xs ∧ read h.1 = .ok (some h.2)
  apart : held.Pairwise fun h k => ¬ clash h.1 k.1

theorem Claimed.claim (hheld : Claimed clash read xs held)
    (h : claim clash read held x = .ok held') : Claimed clash read (xs ++ [x]) held' := by
  have hsame : Claimed clash read (xs ++ [x]) held :=
    ⟨fun h hmem => ⟨List.mem_append_left _ (hheld.mem h hmem).1, (hheld.mem h hmem).2⟩,
      hheld.apart⟩
  by_cases hclash : ∃ h ∈ held, clash h.1 x
  · rw [claim_of_clash hclash] at h
    cases h
    exact hsame
  · push Not at hclash
    rw [claim_of_free hclash] at h
    cases hread : read x with
    | error e =>
        rw [hread] at h
        cases h
    | ok o =>
        rw [hread] at h
        cases o with
        | none =>
            cases h
            exact hsame
        | some y =>
            cases h
            constructor
            · intro k hk
              rcases List.mem_append.mp hk with hk | hk
              · exact hsame.mem k hk
              · obtain rfl := List.mem_singleton.mp hk
                exact ⟨List.mem_append_right _ (List.mem_singleton_self _), hread⟩
            · refine List.pairwise_append.mpr ⟨hsame.apart, List.pairwise_singleton _ _, ?_⟩
              intro k hk l hl
              obtain rfl := List.mem_singleton.mp hl
              exact hclash k hk

theorem foldlM_concat {f : List (α × β) → α → Except ε (List (α × β))} (xs : List α) (x : α) :
    (xs ++ [x]).foldlM f held = (xs.foldlM f held).bind fun held => f held x := by
  rw [List.foldlM_append]
  cases xs.foldlM f held with
  | error e => rfl
  | ok held =>
      show [x].foldlM f held = f held x
      rw [List.foldlM_cons]
      cases f held x <;> rfl

theorem run_concat (h : (xs ++ [x]).foldlM (claim clash read) [] = .ok held') :
    ∃ held, xs.foldlM (claim clash read) [] = .ok held ∧ claim clash read held x = .ok held' := by
  rw [foldlM_concat] at h
  cases hrun : xs.foldlM (claim clash read) [] with
  | error e =>
      rw [hrun] at h
      cases h
  | ok held =>
      rw [hrun] at h
      exact ⟨held, rfl, h⟩

/-- What a run to the end holds. -/
theorem claimed_of_run (h : xs.foldlM (claim clash read) [] = .ok held) :
    Claimed clash read xs held := by
  induction xs using List.reverseRec generalizing held with
  | nil =>
      cases h
      exact ⟨fun _ h => absurd h List.not_mem_nil, List.Pairwise.nil⟩
  | append_singleton xs x ih =>
      obtain ⟨before, hrun, hclaim⟩ := run_concat h
      exact (ih hrun).claim hclaim

section Reading

variable (hlegible : legible x ↔ ∃ o, read x = .ok o)
  (hnames : (∃ y, read x = .ok (some y)) ↔ legible x ∧ names x)

include hlegible hnames

/-- An item that is read, if it is, and what it then claims. -/
theorem of_claim_ok (h : claim clash read held x = .ok held') :
    ((∀ h ∈ held.map Prod.fst, ¬ clash h x) → legible x) ∧
      held'.map Prod.fst = claimNext clash names (held.map Prod.fst) x := by
  by_cases hclash : ∃ h ∈ held, clash h.1 x
  · rw [claim_of_clash hclash] at h
    cases h
    obtain ⟨k, hmem, hk⟩ := hclash
    have hfst : ¬ ∀ h ∈ held.map Prod.fst, ¬ clash h x :=
      fun hfree => hfree _ (List.mem_map_of_mem hmem) hk
    exact ⟨fun hfree => absurd hfree hfst, by rw [claimNext, if_neg fun hn => hfst hn.2]⟩
  · push Not at hclash
    rw [claim_of_free hclash] at h
    cases hx : read x with
    | error e =>
        rw [hx] at h
        cases h
    | ok o =>
        have hlegal : legible x := hlegible.mpr ⟨o, hx⟩
        refine ⟨fun _ => hlegal, ?_⟩
        rw [hx] at h hnames
        cases o with
        | none =>
            cases h
            have hn : ¬ names x := by
              intro hn
              obtain ⟨y, hy⟩ := hnames.mpr ⟨hlegal, hn⟩
              cases hy
            rw [claimNext, if_neg fun h => hn h.1]
        | some y =>
            cases h
            have hfst : ∀ h ∈ held.map Prod.fst, ¬ clash h x := by
              intro h hmem
              obtain ⟨k, hk, rfl⟩ := List.mem_map.mp hmem
              exact hclash k hk
            rw [claimNext, if_pos ⟨(hnames.mp ⟨y, rfl⟩).2, hfst⟩, List.map_append]
            rfl

omit [DecidablePred names] hnames in
theorem claim_ok (h : (∀ h ∈ held.map Prod.fst, ¬ clash h x) → legible x) :
    ∃ held', claim clash read held x = .ok held' := by
  by_cases hclash : ∃ h ∈ held, clash h.1 x
  · exact ⟨held, claim_of_clash hclash⟩
  · push Not at hclash
    rw [claim_of_free hclash]
    have hfst : ∀ h ∈ held.map Prod.fst, ¬ clash h x := by
      intro h hmem
      obtain ⟨k, hk, rfl⟩ := List.mem_map.mp hmem
      exact hclash k hk
    obtain ⟨o, ho⟩ := hlegible.mp (h hfst)
    rw [ho]
    cases o with
    | none => exact ⟨held, rfl⟩
    | some y => exact ⟨held ++ [(x, y)], rfl⟩

end Reading

section Runs

variable (hlegible : ∀ x ∈ xs, (legible x ↔ ∃ o, read x = .ok o))
  (hnames : ∀ x ∈ xs, ((∃ y, read x = .ok (some y)) ↔ legible x ∧ names x))

include hlegible hnames

/-- What a run to the end has read, and what it holds. -/
theorem of_claimAll_ok (h : xs.foldlM (claim clash read) [] = .ok held) :
    AllLegible clash names legible xs ∧ held.map Prod.fst = claimed clash names xs := by
  induction xs using List.reverseRec generalizing held with
  | nil =>
      cases h
      exact ⟨fun front x back heq => absurd heq (by simp), rfl⟩
  | append_singleton xs x ih =>
      have hx : x ∈ xs ++ [x] := List.mem_append_right _ (List.mem_singleton_self _)
      obtain ⟨before, hrun, hclaim⟩ := run_concat h
      obtain ⟨hxs, hbefore⟩ := ih (fun y hy => hlegible y (List.mem_append_left _ hy))
        (fun y hy => hnames y (List.mem_append_left _ hy)) hrun
      obtain ⟨hx, hheld⟩ := of_claim_ok (hlegible x hx) (hnames x hx) hclaim
      rw [hbefore] at hx hheld
      exact ⟨allLegible_concat.mpr ⟨hxs, hx⟩, hheld.trans (claimed_concat xs x).symm⟩

theorem claimAll_ok (h : AllLegible clash names legible xs) :
    ∃ held, xs.foldlM (claim clash read) [] = .ok held := by
  induction xs using List.reverseRec with
  | nil => exact ⟨[], rfl⟩
  | append_singleton xs x ih =>
      have hlast : x ∈ xs ++ [x] := List.mem_append_right _ (List.mem_singleton_self _)
      have hlegible' := fun y hy => hlegible y (List.mem_append_left [x] hy)
      have hnames' := fun y hy => hnames y (List.mem_append_left [x] hy)
      obtain ⟨hxs, hx⟩ := allLegible_concat.mp h
      obtain ⟨before, hrun⟩ := ih hlegible' hnames' hxs
      rw [← (of_claimAll_ok hlegible' hnames' hrun).2] at hx
      obtain ⟨held, hclaim⟩ := claim_ok (hlegible x hlast) hx
      refine ⟨held, ?_⟩
      rw [foldlM_concat, hrun]
      exact hclaim

/-- A run comes to its end exactly when every item that it reads is legible. -/
theorem claimAll_ok_iff : (∃ held, xs.foldlM (claim clash read) [] = .ok held) ↔
    AllLegible clash names legible xs :=
  ⟨fun h => (of_claimAll_ok hlegible hnames h.choose_spec).1, claimAll_ok hlegible hnames⟩

end Runs

end Spec

end MarkSdk.Lib
