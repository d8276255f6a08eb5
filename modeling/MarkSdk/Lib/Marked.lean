import Mathlib.Data.List.Infix
import Mathlib.Data.List.Basic

/-!
Parts of a list between two marks.

`eraseBlocks` puts a separator in the place of each part from an opening mark to
the first closing mark behind it, with the blanks around the part. Where every
opening mark is closed, none is left (`not_infix_eraseBlocks`).
-/

namespace MarkSdk.Lib

variable {α : Type} [DecidableEq α]

/-- What comes before and behind the first occurrence. -/
def cutAt (mark : List α) : List α → Option (List α × List α)
  | [] => none
  | a :: l =>
      if mark <+: a :: l then some ([], (a :: l).drop mark.length)
      else (cutAt mark l).map fun p => (a :: p.1, p.2)

variable {mark l pre post : List α}

theorem cutAt_eq_some (h : cutAt mark l = some (pre, post)) : l = pre ++ mark ++ post := by
  induction l generalizing pre with
  | nil => cases h
  | cons a l ih =>
      rw [cutAt] at h
      split at h
      case isTrue hmark =>
        obtain ⟨rfl, rfl⟩ := Prod.mk.inj (Option.some.inj h)
        obtain ⟨rest, hrest⟩ := hmark
        rw [← hrest, List.drop_left, List.nil_append]
      case isFalse =>
        obtain ⟨p, hp, heq⟩ := Option.map_eq_some_iff.mp h
        obtain ⟨rfl, rfl⟩ := Prod.mk.inj heq
        rw [List.cons_append, List.cons_append, ← ih hp]

/-- The occurrence found is the first one. -/
theorem not_infix_of_cutAt (hmark : mark ≠ []) (h : cutAt mark l = some (pre, post)) :
    ¬ mark <:+: pre := by
  induction l generalizing pre with
  | nil => cases h
  | cons a l ih =>
      have hlist := cutAt_eq_some h
      rw [cutAt] at h
      split at h
      case isTrue =>
        obtain ⟨rfl, -⟩ := Prod.mk.inj (Option.some.inj h)
        exact fun hin => hmark (List.infix_nil.mp hin)
      case isFalse hnot =>
        obtain ⟨p, hp, heq⟩ := Option.map_eq_some_iff.mp h
        obtain ⟨rfl, rfl⟩ := Prod.mk.inj heq
        intro hin
        rcases List.infix_cons_iff.mp hin with hhere | hlater
        · refine hnot (hhere.trans ?_)
          rw [hlist, List.append_assoc]
          exact List.prefix_append _ _
        · exact ih hp hlater

theorem cutAt_eq_none_iff (hmark : mark ≠ []) : cutAt mark l = none ↔ ¬ mark <:+: l := by
  induction l with
  | nil => exact iff_of_true rfl fun h => hmark (List.infix_nil.mp h)
  | cons a l ih =>
      rw [cutAt, List.infix_cons_iff, not_or]
      split
      case isTrue hhere => exact iff_of_false (by simp) fun h => h.1 hhere
      case isFalse hnot =>
        rw [Option.map_eq_none_iff, ih]
        exact ⟨fun h => ⟨hnot, h⟩, fun h => h.2⟩

theorem cutAt_append_self (hmark : mark ≠ []) (post : List α) :
    cutAt mark (mark ++ post) = some ([], post) := by
  obtain ⟨a, rest, rfl⟩ := List.exists_cons_of_ne_nil hmark
  have hprefix : a :: rest <+: a :: (rest ++ post) := List.prefix_append (a :: rest) post
  rw [List.cons_append, cutAt, if_pos hprefix]
  have hdrop : (a :: (rest ++ post)).drop (a :: rest).length = post :=
    @List.drop_left α (a :: rest) post
  rw [hdrop]

/-! ### Marks without a separator in them -/

section Separator

variable {sep : α} {front : List α}

omit [DecidableEq α] in
theorem prefix_append_cons_iff (front : List α) (hsep : sep ∉ mark) :
    mark <+: front ++ sep :: l ↔ mark <+: front := by
  constructor
  · intro h
    rcases List.prefix_or_prefix_of_prefix h (List.prefix_append front (sep :: l)) with hin | hover
    · exact hin
    · obtain ⟨rest, rfl⟩ := hover
      have hrest : rest <+: sep :: l := (List.prefix_append_right_inj front).mp h
      cases rest with
      | nil => rw [List.append_nil]
      | cons a rest =>
          obtain rfl := (List.cons_prefix_cons.mp hrest).1
          exact absurd (List.mem_append_right _ List.mem_cons_self) hsep
  · intro h
    exact h.trans (List.prefix_append _ _)

omit [DecidableEq α] in
theorem infix_append_cons_iff (hmark : mark ≠ []) (hsep : sep ∉ mark) :
    mark <:+: front ++ sep :: l ↔ mark <:+: front ∨ mark <:+: l := by
  induction front with
  | nil =>
      rw [List.nil_append, List.infix_cons_iff, List.infix_nil]
      have hnot : ¬ mark <+: sep :: l := fun h =>
        hmark (List.prefix_nil.mp ((prefix_append_cons_iff [] hsep).mp h))
      simp [hnot, hmark]
  | cons a front ih =>
      rw [List.cons_append, List.infix_cons_iff, ih, List.infix_cons_iff, ← List.cons_append,
        prefix_append_cons_iff _ hsep, or_assoc]

/-- The first mark is looked for behind what holds none. -/
theorem cutAt_append_cons (hmark : mark ≠ []) (hsep : sep ∉ mark) (hfront : ¬ mark <:+: front) :
    cutAt mark (front ++ sep :: l) =
      (cutAt mark l).map fun p => (front ++ sep :: p.1, p.2) := by
  induction front with
  | nil =>
      have hnot : ¬ mark <+: sep :: l := fun h =>
        hmark (List.prefix_nil.mp ((prefix_append_cons_iff [] hsep).mp h))
      rw [List.nil_append, cutAt, if_neg hnot]
      rfl
  | cons a front ih =>
      rw [List.infix_cons_iff, not_or] at hfront
      have hnot : ¬ mark <+: a :: (front ++ sep :: l) := fun h =>
        hfront.1 ((prefix_append_cons_iff _ hsep).mp h)
      rw [List.cons_append, cutAt, if_neg hnot, ih hfront.2, Option.map_map]
      rfl

end Separator

/-! ### Blocks -/

section Blocks

variable (opening closing : List α) (blank : α → Bool) (sep : α)

/-- `eraseBlocks`, with the blocks that may be in the list. -/
def eraseFrom : Nat → List α → List α
  | 0, l => l
  | n + 1, l =>
      match cutAt opening l with
      | none => l
      | some (pre, rest) =>
          match cutAt closing rest with
          | none => l
          | some (_, post) =>
              (pre.reverse.dropWhile blank).reverse ++
                sep :: eraseFrom n (post.dropWhile blank)

/-- A separator for each block and the blanks around it. -/
def eraseBlocks (l : List α) : List α := eraseFrom opening closing blank sep l.length l

/-- Every opening mark has a closing one behind it. -/
def Closed (l : List α) : Prop := ∀ a b, l = a ++ opening ++ b → closing <:+: b

variable {opening closing blank sep}

omit [DecidableEq α] in
theorem closed_iff_tails : Closed opening closing l ↔
    ∀ t ∈ l.tails, opening <+: t → closing <:+: t.drop opening.length := by
  constructor
  · rintro h t ht ⟨b, rfl⟩
    obtain ⟨a, ha⟩ := (List.mem_tails _ _).mp ht
    rw [List.drop_left]
    exact h a b (by rw [List.append_assoc, ha])
  · intro h a b hl
    have htail : opening ++ b ∈ l.tails :=
      (List.mem_tails _ _).mpr ⟨a, by rw [hl, List.append_assoc]⟩
    have hclose := h _ htail (List.prefix_append _ _)
    rwa [List.drop_left] at hclose

instance (opening closing l : List α) : Decidable (Closed opening closing l) :=
  decidable_of_iff _ closed_iff_tails.symm

theorem eraseFrom_of_not_infix (hopening : opening ≠ []) (h : ¬ opening <:+: l) (n : Nat) :
    eraseFrom opening closing blank sep n l = l := by
  cases n with
  | zero => rfl
  | succ n => rw [eraseFrom, (cutAt_eq_none_iff hopening).mpr h]

omit [DecidableEq α] in
theorem Closed.of_suffix (h : Closed opening closing l) (hl : post <:+ l) :
    Closed opening closing post := by
  obtain ⟨front, rfl⟩ := hl
  rintro a b rfl
  exact h (front ++ a) b (by simp [List.append_assoc])

theorem not_infix_eraseFrom (hopening : opening ≠ []) (hclosing : closing ≠ [])
    (hsep : sep ∉ opening) (n : Nat) (hn : l.length ≤ n) (h : Closed opening closing l) :
    ¬ opening <:+: eraseFrom opening closing blank sep n l := by
  induction n generalizing l with
  | zero =>
      rw [List.length_eq_zero_iff.mp (Nat.le_zero.mp hn)]
      exact fun hin => hopening (List.infix_nil.mp hin)
  | succ n ih =>
      rw [eraseFrom]
      cases hopen : cutAt opening l with
      | none => exact (cutAt_eq_none_iff hopening).mp hopen
      | some p =>
          obtain ⟨pre, rest⟩ := p
          have hl := cutAt_eq_some hopen
          have hclosed := h pre rest hl
          dsimp only
          cases hclose : cutAt closing rest with
          | none => exact absurd hclosed ((cutAt_eq_none_iff hclosing).mp hclose)
          | some q =>
              obtain ⟨body, post⟩ := q
              have hrest := cutAt_eq_some hclose
              have hsuffix : post.dropWhile blank <:+ l := by
                refine (List.dropWhile_suffix blank).trans ?_
                rw [hl, hrest]
                exact (List.suffix_append _ _).trans (List.suffix_append _ _)
              have hlength : (post.dropWhile blank).length ≤ n := by
                have hpos := List.length_pos_of_ne_nil hopening
                have hle := (List.dropWhile_suffix (l := post) blank).length_le
                rw [hl, hrest] at hn
                simp only [List.length_append] at hn
                omega
              dsimp only
              rw [infix_append_cons_iff hopening hsep, not_or]
              refine ⟨fun hin => not_infix_of_cutAt hopening hopen (hin.trans ?_),
                ih hlength (h.of_suffix hsuffix)⟩
              have hpart := List.dropWhile_suffix (l := pre.reverse) blank
              rw [← List.reverse_prefix, List.reverse_reverse] at hpart
              exact hpart.isInfix

variable (blank) in
/-- Where every opening mark is closed, erasing leaves none. -/
theorem not_infix_eraseBlocks (hopening : opening ≠ []) (hclosing : closing ≠ [])
    (hsep : sep ∉ opening) (h : Closed opening closing l) :
    ¬ opening <:+: eraseBlocks opening closing blank sep l :=
  not_infix_eraseFrom hopening hclosing hsep _ (Nat.le_refl _) h

/-- A block at the end is erased, if it is the first one. -/
theorem eraseBlocks_append_block (hopening : opening ≠ []) (hclosing : closing ≠ [])
    (hsep : sep ∉ closing) {front body : List α} (hbody : ¬ closing <:+: body)
    (hopen : cutAt opening (front ++ (opening ++ (sep :: body ++ sep :: closing))) =
      some (front, sep :: body ++ sep :: closing)) :
    eraseBlocks opening closing blank sep
        (front ++ (opening ++ (sep :: body ++ sep :: closing))) =
      (front.reverse.dropWhile blank).reverse ++ [sep] := by
  have hbody' : ¬ closing <:+: sep :: body := by
    rw [← List.nil_append (sep :: body), infix_append_cons_iff hclosing hsep, List.infix_nil,
      not_or]
    exact ⟨hclosing, hbody⟩
  have hclose : cutAt closing (sep :: body ++ sep :: closing) =
      some (sep :: body ++ [sep], []) := by
    have hself := cutAt_append_self hclosing []
    rw [List.append_nil] at hself
    rw [cutAt_append_cons hclosing hsep hbody', hself]
    rfl
  have hlength : (front ++ (opening ++ (sep :: body ++ sep :: closing))).length =
      (front ++ (opening ++ (body ++ sep :: closing))).length + 1 := by
    simp only [List.length_append, List.length_cons]
    omega
  rw [eraseBlocks, hlength, eraseFrom, hopen]
  dsimp only
  rw [hclose]
  dsimp only
  rw [List.dropWhile_nil, eraseFrom_of_not_infix hopening fun h => hopening (List.infix_nil.mp h)]

end Blocks

end MarkSdk.Lib
