import Mathlib.Algebra.Group.Nat.Defs
import Mathlib.Data.List.Lex
import Mathlib.Data.Nat.Basic

/-!
Numbers written with a fixed number of digits.

Words of one length are compared before what follows them
(`append_lt_append_of_lt`), and numbers written with the same number of digits
are in the order of the numbers (`pad_lt_pad`).
-/

namespace MarkSdk.Lib

section Words

variable {α : Type} [LT α] {u v s t : List α}

/-- What follows does not matter once the words differ. -/
theorem append_lt_append_of_lt (hlength : u.length = v.length) (h : u < v) :
    u ++ s < v ++ t := by
  induction u generalizing v with
  | nil =>
      rw [List.length_nil, eq_comm, List.length_eq_zero_iff] at hlength
      rw [hlength] at h
      cases h
  | cons a u ih =>
      cases v with
      | nil => cases hlength
      | cons b v =>
          rw [List.cons_append, List.cons_append, List.cons_lt_cons_iff]
          rcases List.cons_lt_cons_iff.mp h with hab | ⟨hab, huv⟩
          · exact .inl hab
          · exact .inr ⟨hab, ih (Nat.succ.inj hlength) huv⟩

end Words

/-! ### Digits -/

/-- A digit of a number. -/
def digitOf (d : Nat) : Char := Char.ofNat (48 + d)

/-- `n` with `width` digits: `%0*d`. -/
def pad : Nat → Nat → List Char
  | 0, _ => []
  | width + 1, n => pad width (n / 10) ++ [digitOf (n % 10)]

section Digits

variable {width m n : Nat}

@[simp] theorem length_pad : (pad width n).length = width := by
  induction width generalizing n with
  | zero => rfl
  | succ width ih => rw [pad, List.length_append, ih, List.length_singleton]

theorem digitOf_lt_digitOf (h : m < n) (hn : n < 10) : digitOf m < digitOf n := by
  have hall : ∀ i : Fin 10, ∀ j : Fin 10, i < j → digitOf i < digitOf j := by decide
  exact hall ⟨m, h.trans hn⟩ ⟨n, hn⟩ h

/-- Numbers of one width are in the order of their digits. -/
theorem pad_lt_pad (h : m < n) (hn : n < 10 ^ width) : pad width m < pad width n := by
  induction width generalizing m n with
  | zero => omega
  | succ width ih =>
      rw [pad, pad]
      rcases Nat.lt_or_eq_of_le (Nat.div_le_div_right h.le : m / 10 ≤ n / 10) with hlt | heq
      · rw [Nat.pow_succ] at hn
        exact append_lt_append_of_lt (by rw [length_pad, length_pad]) (ih hlt (by omega))
      · rw [heq]
        refine List.append_left_lt (List.cons_lt_cons_iff.mpr (.inl ?_))
        exact digitOf_lt_digitOf (by omega) (Nat.mod_lt _ (by omega))

end Digits

end MarkSdk.Lib
