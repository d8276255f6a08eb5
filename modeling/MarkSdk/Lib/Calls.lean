import MarkSdk.Lib.Transaction

/-!
Programs of calls on a shared state.

A value of `Calls σ ε α` is what a client does that calls a store again and
again: each `call` changes the state at one go and the program goes on with
what the call has seen of the state before it. Nothing is undone when a later
call raises. `Calls.run` makes the calls one after another with nothing in
between; `Calls.next` is one call alone, for clients that take turns.
-/

namespace MarkSdk.Lib

/-- A program of atomic calls on the state `σ`, raising errors in `ε`. -/
inductive Calls (σ ε α : Type) : Type
  | done (a : α)
  | raise (e : ε)
  | call (f : σ → σ) (k : σ → Calls σ ε α)

namespace Calls

variable {σ ε α β : Type}

def bind : Calls σ ε α → (α → Calls σ ε β) → Calls σ ε β
  | .done a, g => g a
  | .raise e, _ => .raise e
  | .call f k, g => .call f fun s => (k s).bind g

instance : Monad (Calls σ ε) where
  pure := .done
  bind := .bind

/-- A read of the state. -/
def read (f : σ → α) : Calls σ ε α := .call id fun s => .done (f s)

def ofExcept : Except ε α → Calls σ ε α
  | .ok a => .done a
  | .error e => .raise e

/-- One transaction, from `BEGIN` to `COMMIT` or `ROLLBACK`. -/
def txn (t : Txn σ ε α) : Calls σ ε α := .call t.apply fun s => .ofExcept (t.outcome s)

/-- `for x in xs: body(x)` -/
def forEach (body : β → Calls σ ε Unit) : List β → Calls σ ε Unit
  | [] => .done ()
  | x :: xs => (body x).bind fun _ => forEach body xs

/-- What the program returns or raises, and the state it leaves. -/
def run : Calls σ ε α → σ → Except ε α × σ
  | .done a, s => (.ok a, s)
  | .raise e, s => (.error e, s)
  | .call f k, s => (k s).run (f s)

/-- The state that the program leaves. -/
def after (c : Calls σ ε α) (s : σ) : σ := (c.run s).2

@[simp] theorem run_done (a : α) (s : σ) : (done a : Calls σ ε α).run s = (.ok a, s) := rfl

@[simp] theorem run_pure (a : α) (s : σ) : (pure a : Calls σ ε α).run s = (.ok a, s) := rfl

@[simp] theorem run_read (f : σ → α) (s : σ) :
    (read f : Calls σ ε α).run s = (.ok (f s), s) := rfl

@[simp] theorem run_txn (t : Txn σ ε α) (s : σ) : (txn t).run s = (t.outcome s, t.apply s) := by
  simp only [txn, run]
  cases t.outcome s <;> rfl

theorem run_bind' (c : Calls σ ε α) (g : α → Calls σ ε β) (s : σ) :
    (c.bind g).run s =
      match c.run s with
      | (.ok a, s') => (g a).run s'
      | (.error e, s') => (.error e, s') := by
  induction c generalizing s with
  | done a => rfl
  | raise e => rfl
  | call f k ih => exact ih s (f s)

@[simp] theorem run_bind (c : Calls σ ε α) (g : α → Calls σ ε β) (s : σ) :
    (c >>= g).run s =
      match c.run s with
      | (.ok a, s') => (g a).run s'
      | (.error e, s') => (.error e, s') :=
  run_bind' c g s

/-- A program that returns has returned from its first part. -/
theorem run_bind_eq_ok {c : Calls σ ε α} {g : α → Calls σ ε β} {s s'' : σ} {b : β} :
    (c >>= g).run s = (.ok b, s'') ↔
      ∃ a s', c.run s = (.ok a, s') ∧ (g a).run s' = (.ok b, s'') := by
  rw [run_bind]
  cases hrun : c.run s with
  | mk r s' =>
      cases r with
      | ok a => simp
      | error e => simp

theorem run_txn_eq_ok {t : Txn σ ε α} {s s' : σ} {a : α} :
    (txn t).run s = (.ok a, s') ↔ t.exec s = .ok (a, s') := by
  rw [run_txn, Txn.outcome, Txn.apply]
  cases t.exec s with
  | error e => simp
  | ok r => simp [Prod.ext_iff]

@[simp] theorem after_txn (t : Txn σ ε α) (s : σ) : (txn t).after s = t.apply s := by
  rw [after, run_txn]

theorem after_bind_of_ok {c : Calls σ ε α} {g : α → Calls σ ε β} {s s' : σ} {a : α}
    (h : c.run s = (.ok a, s')) : (c >>= g).after s = (g a).after s' := by
  rw [after, run_bind, h]
  rfl

theorem after_txn_bind (t : Txn σ ε α) (b : β) (s : σ) :
    (do let _ ← txn t; pure b : Calls σ ε β).after s = t.apply s := by
  rw [after, run_bind, run_txn]
  cases t.outcome s <;> rfl

/-- A relation that is reflexive and transitive relates the states before and
after a program when it relates those of every call. -/
theorem after_rel {R : σ → σ → Prop} (hrefl : ∀ s, R s s)
    (htrans : ∀ {s t u}, R s t → R t u → R s u) {c : Calls σ ε α} {g : α → Calls σ ε β} {s : σ}
    (hc : R s (c.after s)) (hg : ∀ a s', R s' ((g a).after s')) : R s ((c >>= g).after s) := by
  have := hrefl s
  unfold after at *
  rw [run_bind]
  cases hrun : c.run s with
  | mk r s' =>
      rw [hrun] at hc
      cases r with
      | ok a => exact htrans hc (hg a s')
      | error e => exact hc

/-- The same for a loop. -/
theorem forEach_rel {R : σ → σ → Prop} (hrefl : ∀ s, R s s)
    (htrans : ∀ {s t u}, R s t → R t u → R s u) {body : β → Calls σ ε Unit} {xs : List β}
    (hbody : ∀ x ∈ xs, ∀ s, R s ((body x).after s)) (s : σ) : R s ((forEach body xs).after s) := by
  induction xs generalizing s with
  | nil => exact hrefl s
  | cons x xs ih =>
      refine after_rel hrefl htrans (hbody x List.mem_cons_self s) fun _ s' => ?_
      exact ih (fun y hy => hbody y (List.mem_cons_of_mem x hy)) s'

end Calls

end MarkSdk.Lib
