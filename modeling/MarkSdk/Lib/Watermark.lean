import Mathlib.Data.List.Basic

/-!
Following a table by a watermark.

A reader of a table remembers the newest stamp that it has seen, and the keys
that it has seen with that stamp. What the mark covers it does not read again.
A mark that advances covers what the old mark or the new one covers
(`Watermark.covers_advance_iff`), so a row is passed over only if it was
covered before or if the mark has advanced past it unread.
-/

namespace MarkSdk.Lib

/-- The newest stamp seen, and the keys seen with it. -/
structure Watermark (ι : Type) where
  mark : Option Int
  ids : List ι

namespace Watermark

variable {ι : Type} [DecidableEq ι]

/-- Nothing is seen yet. -/
def none : Watermark ι := ⟨.none, []⟩

/-- A row with this stamp and key counts as seen. -/
def covers (w : Watermark ι) (stamp : Int) (key : ι) : Bool :=
  w.mark.any fun mark => stamp < mark || (stamp = mark && w.ids.contains key)

/-- The mark after one more row. -/
def see (w : Watermark ι) (stamp : Int) (key : ι) : Watermark ι :=
  match w.mark with
  | .none => ⟨some stamp, [key]⟩
  | some mark =>
      if mark < stamp then ⟨some stamp, [key]⟩
      else if stamp = mark then ⟨some mark, w.ids ++ [key]⟩
      else w

/-- The mark after what another one has seen: the newer of the two, or both
together when they are equal. -/
def advance (w seen : Watermark ι) : Watermark ι :=
  match seen.mark with
  | .none => w
  | some mark =>
      match w.mark with
      | .none => seen
      | some old =>
          if mark = old then ⟨some old, w.ids ++ seen.ids⟩
          else if old < mark then seen
          else w

variable {w w' : Watermark ι} {stamp : Int} {key : ι}

@[simp] theorem covers_none : (none : Watermark ι).covers stamp key = false := rfl

theorem covers_iff : w.covers stamp key = true ↔
    ∃ mark, w.mark = some mark ∧ (stamp < mark ∨ (stamp = mark ∧ key ∈ w.ids)) := by
  unfold covers
  cases w.mark <;> simp

/-- An advanced mark covers what one of the two has covered. -/
theorem covers_advance_iff :
    (w.advance w').covers stamp key = true ↔
      w.covers stamp key = true ∨ w'.covers stamp key = true := by
  rw [covers_iff, covers_iff, covers_iff]
  unfold advance
  cases hseen : w'.mark with
  | none => simp
  | some mark =>
      cases hold : w.mark with
      | none => simp [hseen]
      | some old =>
          dsimp only
          split
          · rename_i hsame
            subst hsame
            simp only [Option.some.injEq, exists_eq_left', List.mem_append]
            tauto
          · split
            · rename_i hne hlt
              simp only [hseen, Option.some.injEq, exists_eq_left']
              constructor
              · exact .inr
              · rintro (hcovered | hcovered)
                · left
                  omega
                · exact hcovered
            · rename_i hne hlt
              simp only [hold, Option.some.injEq, exists_eq_left']
              constructor
              · exact .inl
              · rintro (hcovered | hcovered)
                · exact hcovered
                · left
                  omega

end Watermark

end MarkSdk.Lib
