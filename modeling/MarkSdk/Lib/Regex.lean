import Mathlib.Data.List.Basic
import Mathlib.Data.List.Infix

/-!
Regular expressions with word edges, and substitution.

`rests` tries the ways to match in the order of a backtracking search, and
`Fits` says which words match between two neighbours (`mem_rests_iff`). `sub`
rewrites the matches from left to right; `covered` says which places they take.
A place that no match takes begins none (`not_fits_of_uncovered`).
-/

namespace MarkSdk.Lib

inductive Regex (α : Type) : Type
  | eps
  | one (p : α → Bool)
  /-- between a word character and another one, or an end -/
  | edge
  | seq (r t : Regex α)
  | alt (r t : Regex α)
  /-- from `low` to `high` characters, as many as there are -/
  | rep (low high : Nat) (p : α → Bool)
  | star (p : α → Bool)

namespace Regex

variable {α γ : Type}

/-- Every class of characters in the expression is such a class. -/
def All (P : (α → Bool) → Prop) : Regex α → Prop
  | .eps => True
  | .one p => P p
  | .edge => True
  | .seq r t => r.All P ∧ t.All P
  | .alt r t => r.All P ∧ t.All P
  | .rep _ _ p => P p
  | .star p => P p

theorem All.mono {P Q : (α → Bool) → Prop} {r : Regex α} (h : r.All P)
    (hPQ : ∀ p, P p → Q p) : r.All Q := by
  induction r with
  | eps => trivial
  | one p => exact hPQ p h
  | edge => trivial
  | seq r t ihr iht => exact ⟨ihr h.1, iht h.2⟩
  | alt r t ihr iht => exact ⟨ihr h.1, iht h.2⟩
  | rep low high p => exact hPQ p h
  | star p => exact hPQ p h

def alts : List (Regex α) → Regex α
  | [] => .one fun _ => false
  | [r] => r
  | r :: rs => .alt r (alts rs)

def opt (r : Regex α) : Regex α := .alt r .eps

/-- What stands before a longer part. -/
theorem getLast?_cons_or (c : α) (l : List α) (b : Option α) :
    (c :: l).getLast?.or b = l.getLast?.or (some c) := by
  cases hlast : l.getLast? with
  | none => simp [List.getLast?_cons, hlast]
  | some d => simp [List.getLast?_cons, hlast]

/-! ### Matching -/

section Matching

variable (word : α → Bool)

/-- What is left behind up to `n` characters, the longest way first. -/
def takeUpTo (p : α → Bool) : Nat → Option α → List α → List (Option α × List α)
  | 0, b, s => [(b, s)]
  | _ + 1, b, [] => [(b, [])]
  | n + 1, b, c :: s => if p c then takeUpTo p n (some c) s ++ [(b, c :: s)] else [(b, c :: s)]

/-- What is left behind a match, with the character before it. -/
def rests : Regex α → Option α → List α → List (Option α × List α)
  | .eps, b, s => [(b, s)]
  | .one p, _, s =>
      match s with
      | [] => []
      | c :: s => if p c then [(some c, s)] else []
  | .edge, b, s => if b.any word = s.head?.any word then [] else [(b, s)]
  | .seq r t, b, s => (r.rests b s).flatMap fun x => t.rests x.1 x.2
  | .alt r t, b, s => r.rests b s ++ t.rests b s
  | .rep low high p, b, s =>
      (takeUpTo p high b s).filter fun x => low ≤ s.length - x.2.length
  | .star p, b, s => takeUpTo p s.length b s

/-- The expression matches a word that stands between two neighbours. -/
def Fits : Regex α → Option α → List α → Option α → Prop
  | .eps, _, w, _ => w = []
  | .one p, _, w, _ => ∃ c, w = [c] ∧ p c = true
  | .edge, b, w, n => w = [] ∧ b.any word ≠ n.any word
  | .seq r t, b, w, n =>
      ∃ u v, w = u ++ v ∧ r.Fits b u (v.head?.or n) ∧ t.Fits (u.getLast?.or b) v n
  | .alt r t, b, w, n => r.Fits b w n ∨ t.Fits b w n
  | .rep low high p, _, w, _ => low ≤ w.length ∧ w.length ≤ high ∧ ∀ c ∈ w, p c = true
  | .star p, _, w, _ => ∀ c ∈ w, p c = true

variable {word} {p : α → Bool} {b b' : Option α} {s s' w : List α} {r t : Regex α}

theorem mem_takeUpTo_iff {n : Nat} :
    (b', s') ∈ takeUpTo p n b s ↔
      ∃ w, s = w ++ s' ∧ b' = w.getLast?.or b ∧ w.length ≤ n ∧ ∀ c ∈ w, p c = true := by
  induction n generalizing b s with
  | zero =>
      rw [takeUpTo, List.mem_singleton, Prod.mk.injEq]
      constructor
      · rintro ⟨rfl, rfl⟩
        exact ⟨[], rfl, rfl, le_rfl, by simp⟩
      · rintro ⟨w, rfl, rfl, hw, -⟩
        obtain rfl := List.length_eq_zero_iff.mp (Nat.le_zero.mp hw)
        exact ⟨rfl, rfl⟩
  | succ n ih =>
      have hnone : (b', s') = (b, s) → ∃ w, s = w ++ s' ∧ b' = w.getLast?.or b ∧
          w.length ≤ n + 1 ∧ ∀ c ∈ w, p c = true := by
        intro h
        obtain ⟨rfl, rfl⟩ := Prod.mk.inj h
        exact ⟨[], rfl, rfl, Nat.zero_le _, by simp⟩
      cases s with
      | nil =>
          rw [takeUpTo, List.mem_singleton]
          refine ⟨hnone, ?_⟩
          rintro ⟨w, hw, rfl, -, -⟩
          obtain ⟨rfl, rfl⟩ := List.append_eq_nil_iff.mp hw.symm
          rfl
      | cons c s =>
          rw [takeUpTo]
          split
          case isTrue hc =>
            rw [List.mem_append, List.mem_singleton, ih]
            constructor
            · rintro (⟨w, rfl, rfl, hlength, hall⟩ | h)
              · refine ⟨c :: w, rfl, (getLast?_cons_or c w b).symm, Nat.succ_le_succ hlength, ?_⟩
                intro d hd
                rcases List.mem_cons.mp hd with rfl | hd
                · exact hc
                · exact hall d hd
              · exact hnone h
            · rintro ⟨w, hw, rfl, hlength, hall⟩
              cases w with
              | nil => exact .inr (by rw [hw]; rfl)
              | cons d w =>
                  obtain ⟨rfl, rfl⟩ := List.cons.inj hw
                  exact .inl ⟨w, rfl, getLast?_cons_or _ w b, Nat.le_of_succ_le_succ hlength,
                    fun d hd => hall d (List.mem_cons_of_mem _ hd)⟩
          case isFalse hc =>
            rw [List.mem_singleton]
            refine ⟨hnone, ?_⟩
            rintro ⟨w, hw, rfl, -, hall⟩
            cases w with
            | nil => rw [hw]; rfl
            | cons d w =>
                obtain ⟨rfl, rfl⟩ := List.cons.inj hw
                exact absurd (hall _ List.mem_cons_self) hc

/-- The search finds the words that match, and no others. -/
theorem mem_rests_iff : (b', s') ∈ r.rests word b s ↔
    ∃ w, s = w ++ s' ∧ b' = w.getLast?.or b ∧ r.Fits word b w s'.head? := by
  induction r generalizing b b' s s' with
  | eps =>
      rw [rests, List.mem_singleton, Prod.mk.injEq]
      constructor
      · rintro ⟨rfl, rfl⟩
        exact ⟨[], rfl, rfl, rfl⟩
      · rintro ⟨w, rfl, rfl, rfl⟩
        exact ⟨rfl, rfl⟩
  | one p =>
      constructor
      · intro h
        cases s with
        | nil => cases h
        | cons c s =>
            rw [rests] at h
            split at h
            case isTrue hc =>
              obtain ⟨rfl, rfl⟩ := Prod.mk.inj (List.mem_singleton.mp h)
              exact ⟨[c], rfl, rfl, c, rfl, hc⟩
            case isFalse => cases h
      · rintro ⟨w, rfl, rfl, c, rfl, hc⟩
        rw [List.singleton_append, rests, if_pos hc]
        exact List.mem_singleton_self _
  | edge =>
      rw [rests]
      constructor
      · intro h
        split at h
        case isTrue => cases h
        case isFalse hedge =>
          obtain ⟨rfl, rfl⟩ := Prod.mk.inj (List.mem_singleton.mp h)
          exact ⟨[], rfl, rfl, rfl, hedge⟩
      · rintro ⟨w, rfl, rfl, rfl, hedge⟩
        rw [List.nil_append, if_neg hedge]
        exact List.mem_singleton_self _
  | seq r t ihr iht =>
      rw [rests, List.mem_flatMap]
      constructor
      · rintro ⟨⟨b₁, s₁⟩, h₁, h₂⟩
        obtain ⟨u, rfl, rfl, hu⟩ := ihr.mp h₁
        obtain ⟨v, rfl, rfl, hv⟩ := iht.mp h₂
        refine ⟨u ++ v, (List.append_assoc _ _ _).symm, ?_, u, v, rfl, ?_, hv⟩
        · rw [List.getLast?_append, Option.or_assoc]
        · rwa [List.head?_append] at hu
      · rintro ⟨w, rfl, rfl, u, v, rfl, hu, hv⟩
        refine ⟨(u.getLast?.or b, v ++ s'), ihr.mpr ⟨u, List.append_assoc _ _ _, rfl, ?_⟩,
          iht.mpr ⟨v, rfl, ?_, hv⟩⟩
        · rwa [List.head?_append]
        · rw [List.getLast?_append, Option.or_assoc]
  | alt r t ihr iht =>
      rw [rests, List.mem_append, ihr, iht]
      constructor
      · rintro (⟨w, hs, hb, hw⟩ | ⟨w, hs, hb, hw⟩)
        · exact ⟨w, hs, hb, .inl hw⟩
        · exact ⟨w, hs, hb, .inr hw⟩
      · rintro ⟨w, hs, hb, hw | hw⟩
        · exact .inl ⟨w, hs, hb, hw⟩
        · exact .inr ⟨w, hs, hb, hw⟩
  | rep low high p =>
      rw [rests, List.mem_filter, mem_takeUpTo_iff]
      constructor
      · rintro ⟨⟨w, rfl, hb, hlength, hall⟩, hlow⟩
        rw [decide_eq_true_eq, List.length_append, Nat.add_sub_cancel] at hlow
        exact ⟨w, rfl, hb, hlow, hlength, hall⟩
      · rintro ⟨w, rfl, hb, hlow, hlength, hall⟩
        refine ⟨⟨w, rfl, hb, hlength, hall⟩, ?_⟩
        rw [decide_eq_true_eq, List.length_append, Nat.add_sub_cancel]
        exact hlow
  | star p =>
      rw [rests, mem_takeUpTo_iff]
      constructor
      · rintro ⟨w, hs, hb, -, hall⟩
        exact ⟨w, hs, hb, hall⟩
      · rintro ⟨w, hs, hb, hall⟩
        refine ⟨w, hs, hb, ?_, hall⟩
        rw [hs, List.length_append]
        exact Nat.le_add_right _ _

/-- A match is told by its first part, its repeated part and its last part. -/
theorem fits_seq_rep_seq {low high : Nat} {n : Option α} {q : α → Bool} :
    (Regex.seq r (.seq (.rep low high q) t)).Fits word b w n ↔
      ∃ u v z, w = u ++ (v ++ z) ∧ r.Fits word b u ((v ++ z).head?.or n) ∧
        (low ≤ v.length ∧ v.length ≤ high ∧ ∀ c ∈ v, q c = true) ∧
          t.Fits word (v.getLast?.or (u.getLast?.or b)) z n := by
  constructor
  · rintro ⟨u, _, rfl, hu, v, z, rfl, hv, hz⟩
    exact ⟨u, v, z, rfl, hu, hv, hz⟩
  · rintro ⟨u, v, z, rfl, hu, hv, hz⟩
    exact ⟨u, v ++ z, rfl, hu, v, z, rfl, hv, hz⟩

/-- Two readings of the same characters match alike where each class that takes
the one reading takes the other. -/
theorem Fits.of_map (f g : γ → α) (hedge : ∀ x, word (f x) = word (g x)) {b n : Option γ}
    {w : List γ} (hr : r.All fun p => ∀ x, p (f x) = true → p (g x) = true)
    (h : r.Fits word (b.map f) (w.map f) (n.map f)) :
    r.Fits word (b.map g) (w.map g) (n.map g) := by
  induction r generalizing b n w with
  | eps => exact List.map_eq_nil_iff.mpr (List.map_eq_nil_iff.mp h)
  | one p =>
      obtain ⟨c, hw, hc⟩ := h
      obtain ⟨x, rfl, rfl⟩ := List.map_eq_singleton_iff.mp hw
      exact ⟨g x, rfl, hr x hc⟩
  | edge =>
      obtain ⟨hw, hne⟩ := h
      refine ⟨List.map_eq_nil_iff.mpr (List.map_eq_nil_iff.mp hw), ?_⟩
      have hsame : ∀ o : Option γ, (o.map f).any word = (o.map g).any word := by
        rintro (_ | x)
        · rfl
        · exact hedge x
      rwa [← hsame, ← hsame]
  | seq r t ihr iht =>
      obtain ⟨_, _, hw, hu, hv⟩ := h
      obtain ⟨u, v, rfl, rfl, rfl⟩ := List.map_eq_append_iff.mp hw
      rw [List.head?_map, ← Option.map_or] at hu
      rw [List.getLast?_map, ← Option.map_or] at hv
      refine ⟨u.map g, v.map g, List.map_append, ?_, ?_⟩
      · rw [List.head?_map, ← Option.map_or]
        exact ihr hr.1 hu
      · rw [List.getLast?_map, ← Option.map_or]
        exact iht hr.2 hv
  | alt r t ihr iht =>
      rcases h with h | h
      · exact .inl (ihr hr.1 h)
      · exact .inr (iht hr.2 h)
  | rep low high p =>
      rw [Fits, List.length_map] at h ⊢
      refine ⟨h.1, h.2.1, fun c hc => ?_⟩
      obtain ⟨x, hx, rfl⟩ := List.mem_map.mp hc
      exact hr x (h.2.2 _ (List.mem_map_of_mem hx))
  | star p =>
      intro c hc
      obtain ⟨x, hx, rfl⟩ := List.mem_map.mp hc
      exact hr x (h _ (List.mem_map_of_mem hx))

end Matching

/-! ### Substitution -/

section Substitution

variable (word : α → Bool) (r : Regex α)

/-- The length of the match that the search finds first. -/
def matchLength (b : Option α) (s : List α) : Option Nat :=
  (r.rests word b s).head?.map fun x => s.length - x.2.length

/-- The matches are replaced from left to right; `skip` characters belong to the
last one. A match without characters is passed over. -/
def sub (replace : List α → List α) : Option α → Nat → List α → List α
  | _, _, [] => []
  | _, skip + 1, c :: s => sub replace (some c) skip s
  | b, 0, c :: s =>
      match r.matchLength word b (c :: s) with
      | some (n + 1) => replace ((c :: s).take (n + 1)) ++ sub replace (some c) n s
      | _ => c :: sub replace (some c) 0 s

/-- Each character, with whether it belongs to a match that `sub` finds. -/
def covered : Option α → Nat → List α → List (α × Bool)
  | _, _, [] => []
  | _, skip + 1, c :: s => (c, true) :: covered (some c) skip s
  | b, 0, c :: s =>
      match r.matchLength word b (c :: s) with
      | some (n + 1) => (c, true) :: covered (some c) n s
      | _ => (c, false) :: covered (some c) 0 s

/-- Somewhere in a text there is a match. -/
def Occurs (b : Option α) (s : List α) : Prop :=
  ∃ front w back, s = front ++ w ++ back ∧ w ≠ [] ∧
    r.Fits word (front.getLast?.or b) w back.head?

/-- Every match has a character. -/
def Proper : Prop := ∀ b w n, r.Fits word b w n → w ≠ []

variable {word r} {b : Option α} {s : List α} {skip : Nat}

theorem covered_fst : (r.covered word b skip s).map Prod.fst = s := by
  induction s generalizing b skip with
  | nil => cases skip <;> rfl
  | cons c s ih =>
      cases skip with
      | succ skip => exact congrArg (c :: ·) ih
      | zero =>
          rw [covered]
          split
          · exact congrArg (c :: ·) ih
          · exact congrArg (c :: ·) ih

/-- Character by character, the characters in matches are replaced. -/
theorem sub_map (f : α → α) : (r.covered word b skip s).map (fun x => if x.2 then f x.1 else x.1) =
    (s.take skip).map f ++ r.sub word (List.map f) b skip s := by
  induction s generalizing b skip with
  | nil => cases skip <;> rfl
  | cons c s ih =>
      cases skip with
      | succ skip =>
          rw [covered, List.map_cons, ih, sub, List.take_succ_cons, List.map_cons]
          rfl
      | zero =>
          rw [covered, sub, List.take_zero, List.map_nil, List.nil_append]
          split
          · rw [List.map_cons, ih, List.take_succ_cons, List.map_cons]
            rfl
          · rw [List.map_cons, ih, List.take_zero]
            rfl

/-- Nothing found at a place is nothing that matches there. -/
theorem not_fits_of_matchLength (hproper : r.Proper word)
    (h : ∀ n, r.matchLength word b s ≠ some (n + 1)) {w back : List α} (hs : s = w ++ back) :
    ¬ r.Fits word b w back.head? := by
  intro hfits
  have hmem : (w.getLast?.or b, back) ∈ r.rests word b s :=
    mem_rests_iff.mpr ⟨w, hs, rfl, hfits⟩
  obtain ⟨first, others, hrests⟩ := List.exists_cons_of_ne_nil (List.ne_nil_of_mem hmem)
  obtain ⟨w', hs', -, hfits'⟩ := mem_rests_iff.mp (hrests ▸ List.mem_cons_self :
    (first.1, first.2) ∈ r.rests word b s)
  obtain ⟨c, t, rfl⟩ := List.exists_cons_of_ne_nil (hproper _ _ _ hfits')
  refine h t.length ?_
  rw [matchLength, hrests, List.head?_cons, Option.map_some, hs', List.length_append,
    Nat.add_sub_cancel, List.length_cons]

/-- What is found at a place matches there. -/
theorem fits_of_matchLength {n : Nat} (h : r.matchLength word b s = some n) :
    ∃ w back, s = w ++ back ∧ w.length = n ∧ r.Fits word b w back.head? := by
  obtain ⟨x, hx, rfl⟩ := Option.map_eq_some_iff.mp h
  obtain ⟨w, rfl, -, hfits⟩ := mem_rests_iff.mp (List.mem_of_mem_head? hx :
    (x.1, x.2) ∈ r.rests word b s)
  exact ⟨w, x.2, rfl, by rw [List.length_append, Nat.add_sub_cancel], hfits⟩

/-- A place that no match takes begins none. -/
theorem not_fits_of_uncovered (hproper : r.Proper word) {front back : List (α × Bool)} {c : α}
    (h : r.covered word b skip s = front ++ (c, false) :: back) {w rest : List α}
    (hs : c :: back.map Prod.fst = w ++ rest) :
    ¬ r.Fits word ((front.map Prod.fst).getLast?.or b) w rest.head? := by
  induction s generalizing b skip front with
  | nil => cases skip <;> simp [covered] at h
  | cons d s ih =>
      have hlater : ∀ mark later, (d, mark) :: r.covered word (some d) later s =
          front ++ (c, false) :: back → mark = true ∨ front ≠ [] →
            ¬ r.Fits word ((front.map Prod.fst).getLast?.or b) w rest.head? := by
        intro mark later hcons hfront
        cases front with
        | nil =>
            obtain ⟨heq, -⟩ := List.cons.inj hcons
            rcases hfront with rfl | hne
            · cases heq
            · exact absurd rfl hne
        | cons x front =>
            obtain ⟨rfl, htail⟩ := List.cons.inj hcons
            rw [List.map_cons, getLast?_cons_or]
            exact ih htail
      cases skip with
      | succ skip => exact hlater true _ h (.inl rfl)
      | zero =>
          rw [covered] at h
          split at h
          case h_1 => exact hlater true _ h (.inl rfl)
          case h_2 hnone =>
            by_cases hfront : front = []
            · subst hfront
              obtain ⟨heq, htail⟩ := List.cons.inj h
              obtain rfl := (Prod.mk.inj heq).1
              rw [← htail, covered_fst] at hs
              exact not_fits_of_matchLength hproper hnone hs
            · exact hlater false _ h (.inr hfront)

/-- Substitution changes nothing exactly where nothing matches. -/
theorem sub_eq_self_iff (hproper : r.Proper word) (f : α → α)
    (hchange : ∀ b c w n, r.Fits word b (c :: w) n → f c ≠ c) :
    r.sub word (List.map f) b 0 s = s ↔ ¬ r.Occurs word b s := by
  induction s generalizing b with
  | nil =>
      refine iff_of_true rfl ?_
      rintro ⟨front, w, back, hs, hne, -⟩
      exact hne (List.append_eq_nil_iff.mp (List.append_eq_nil_iff.mp hs.symm).1).2
  | cons c s ih =>
      rw [sub]
      split
      case h_1 n hn =>
        obtain ⟨w, back, hs, hlength, hfits⟩ := fits_of_matchLength hn
        refine iff_of_false ?_ (not_not.mpr ⟨[], w, back, hs, hproper _ _ _ hfits, hfits⟩)
        obtain ⟨d, w, rfl⟩ := List.exists_cons_of_ne_nil (hproper _ _ _ hfits)
        obtain ⟨rfl, -⟩ := List.cons.inj hs
        intro hsame
        rw [List.take_succ_cons, List.map_cons, List.cons_append] at hsame
        exact hchange _ _ _ _ hfits (List.cons.inj hsame).1
      case h_2 hnone =>
        rw [List.cons_inj_right, ih, not_iff_not]
        constructor
        · rintro ⟨front, w, back, rfl, hne, hfits⟩
          refine ⟨c :: front, w, back, rfl, hne, ?_⟩
          rwa [getLast?_cons_or]
        · rintro ⟨front, w, back, hs, hne, hfits⟩
          cases front with
          | nil => exact absurd hfits (not_fits_of_matchLength hproper hnone hs)
          | cons d front =>
              obtain ⟨rfl, rfl⟩ := List.cons.inj hs
              rw [getLast?_cons_or] at hfits
              exact ⟨front, w, back, rfl, hne, hfits⟩

end Substitution

end Regex

end MarkSdk.Lib
