import Mathlib.Data.List.Basic

/-!
Transactions as programs of SQL statements.

A value of `Txn σ ε α` is what one connection does inside one
`with connection:` block over a database of type `σ`: it reads (`select`),
it changes rows (`dml`), and it ends by committing a result or by raising.
What a later statement does may depend on every row read before it, so a
program is a tree whose `select` nodes branch on the state they see, and
whose `dml` nodes branch on the number of rows they changed.

`Txn.exec` runs a program alone, all of its statements on one state. An
error, raised by the program or by a statement that violates a constraint,
throws the working state away, which is the rollback. `Txn.apply` is what
is left of the database either way. Running several programs at once, with
the statements of one between the statements of another, is the subject of
`MarkSdk.Lib.Deferred`.
-/

namespace MarkSdk.Lib

/-- A program of SQL statements over the state `σ`, raising errors in `ε`. -/
inductive Txn (σ ε α : Type) : Type
  | commit (a : α)
  | raise (e : ε)
  | select (k : σ → Txn σ ε α)
  | dml (f : σ → Except ε (σ × Nat)) (k : Nat → Txn σ ε α)

namespace Txn

variable {σ ε α β γ : Type}

def bind : Txn σ ε α → (α → Txn σ ε β) → Txn σ ε β
  | .commit a, g => g a
  | .raise e, _ => .raise e
  | .select k, g => .select fun s => (k s).bind g
  | .dml f k, g => .dml f fun n => (k n).bind g

instance : Monad (Txn σ ε) where
  pure := .commit
  bind := .bind

/-- `SELECT`: read the state. -/
def query (f : σ → β) : Txn σ ε β := .select fun s => .commit (f s)

/-- `UPDATE` or `DELETE`: a statement that cannot fail. -/
def update (f : σ → σ) : Txn σ ε Unit := .dml (fun s => .ok (f s, 0)) fun _ => .commit ()

/-- A statement that cannot fail and whose `rowcount` is looked at. -/
def updateCount (f : σ → σ × Nat) : Txn σ ε Nat := .dml (fun s => .ok (f s)) .commit

/-- `INSERT`: a statement that a constraint may refuse. -/
def insert (f : σ → Except ε σ) : Txn σ ε Unit :=
  .dml (fun s => (f s).map fun s' => (s', 1)) fun _ => .commit ()

/-- A computation on values already read; its error is raised. -/
def lift : Except ε α → Txn σ ε α
  | .ok a => .commit a
  | .error e => .raise e

/-- `[x for x in xs if p(x)]` where `p` may raise. -/
def filterE (p : α → Except ε Bool) : List α → Except ε (List α)
  | [] => .ok []
  | x :: xs => do
      let keep ← p x
      let rest ← filterE p xs
      return if keep then x :: rest else rest

theorem filterE_ok (p : α → Bool) (xs : List α) :
    filterE (fun x => (.ok (p x) : Except ε Bool)) xs = .ok (xs.filter p) := by
  induction xs with
  | nil => rfl
  | cons x xs ih =>
      simp only [filterE, ih]
      cases h : p x <;> simp [h] <;> rfl

/-- What is kept is what the predicate gives, as long as it raises nowhere. -/
theorem filterE_eq_filter {p : α → Except ε Bool} {q : α → Bool} {xs ys : List α}
    (hq : ∀ x keep, p x = .ok keep → q x = keep) (h : filterE p xs = .ok ys) :
    ys = xs.filter q := by
  induction xs generalizing ys with
  | nil =>
      simp only [filterE, Except.ok.injEq] at h
      exact h.symm
  | cons x xs ih =>
      simp only [filterE] at h
      cases hp : p x with
      | error e => simp [hp, Bind.bind, Except.bind] at h
      | ok keep =>
          cases hrest : filterE p xs with
          | error e => simp [hp, hrest, Bind.bind, Except.bind] at h
          | ok rest =>
              simp only [hp, hrest, Bind.bind, Except.bind, Pure.pure, Except.pure,
                Except.ok.injEq] at h
              subst h
              rw [List.filter_cons, hq x keep hp, ← ih hrest]

theorem filterE_sublist {p : α → Except ε Bool} {xs ys : List α}
    (h : filterE p xs = .ok ys) : ys.Sublist xs := by
  have hkept := filterE_eq_filter (q := fun x => match p x with
    | .ok keep => keep
    | .error _ => false) (fun x keep hp => by rw [hp]) h
  rw [hkept]
  exact List.filter_sublist

/-- `for x in xs: body(x)`. -/
def forEach (body : β → Txn σ ε Unit) : List β → Txn σ ε Unit
  | [] => .commit ()
  | x :: xs => (body x).bind fun _ => forEach body xs

/-- `[body(x) for x in xs]` -/
def forMap (body : β → Txn σ ε γ) : List β → Txn σ ε (List γ)
  | [] => .commit []
  | x :: xs => (body x).bind fun y => (forMap body xs).bind fun ys => .commit (y :: ys)

/-- What a computation gives comes from what its first step gives. -/
theorem exists_of_bind_eq_ok {x : Except ε α} {g : α → Except ε β} {b : β}
    (h : (x >>= g) = .ok b) : ∃ a, x = .ok a ∧ g a = .ok b := by
  cases x with
  | error e => cases h
  | ok a => exact ⟨a, rfl, h⟩

/-! ### Running a program alone -/

/-- All statements on one state; an error loses the changes. -/
def exec : Txn σ ε α → σ → Except ε (α × σ)
  | .commit a, s => .ok (a, s)
  | .raise e, _ => .error e
  | .select k, s => (k s).exec s
  | .dml f k, s =>
      match f s with
      | .ok (s', n) => (k n).exec s'
      | .error e => .error e

/-- The state after the program has committed or rolled back. -/
def apply (t : Txn σ ε α) (s : σ) : σ :=
  match t.exec s with
  | .ok (_, s') => s'
  | .error _ => s

/-- What the program returned or raised. -/
def outcome (t : Txn σ ε α) (s : σ) : Except ε α :=
  match t.exec s with
  | .ok (a, _) => .ok a
  | .error e => .error e

@[simp] theorem exec_pure (a : α) (s : σ) :
    (pure a : Txn σ ε α).exec s = .ok (a, s) := rfl

@[simp] theorem exec_commit (a : α) (s : σ) :
    (commit a : Txn σ ε α).exec s = .ok (a, s) := rfl

@[simp] theorem exec_raise (e : ε) (s : σ) :
    (raise e : Txn σ ε α).exec s = .error e := rfl

@[simp] theorem exec_query (f : σ → β) (s : σ) :
    (query f : Txn σ ε β).exec s = .ok (f s, s) := rfl

@[simp] theorem exec_update (f : σ → σ) (s : σ) :
    (update f : Txn σ ε Unit).exec s = .ok ((), f s) := rfl

@[simp] theorem exec_updateCount (f : σ → σ × Nat) (s : σ) :
    (updateCount f : Txn σ ε Nat).exec s = .ok ((f s).2, (f s).1) := rfl

theorem exec_insert (f : σ → Except ε σ) (s : σ) :
    (insert f).exec s = (f s).map fun s' => ((), s') := by
  simp only [insert, exec]
  cases f s <;> rfl

@[simp] theorem exec_lift (r : Except ε α) (s : σ) :
    (lift r : Txn σ ε α).exec s = r.map fun a => (a, s) := by
  cases r <;> rfl

theorem exec_bind' (t : Txn σ ε α) (g : α → Txn σ ε β) (s : σ) :
    (t.bind g).exec s =
      match t.exec s with
      | .ok (a, s') => (g a).exec s'
      | .error e => .error e := by
  induction t generalizing s with
  | commit a => rfl
  | raise e => rfl
  | select k ih => exact ih s s
  | dml f k ih =>
      simp only [bind, exec]
      cases f s with
      | ok r => exact ih r.2 r.1
      | error e => rfl

@[simp] theorem exec_bind (t : Txn σ ε α) (g : α → Txn σ ε β) (s : σ) :
    (t >>= g).exec s =
      match t.exec s with
      | .ok (a, s') => (g a).exec s'
      | .error e => .error e :=
  exec_bind' t g s

/-- What a program commits after its first part. -/
theorem exec_bind_eq_ok {t : Txn σ ε α} {g : α → Txn σ ε β} {s s' : σ} {b : β}
    (h : (t >>= g).exec s = .ok (b, s')) :
    ∃ a u, t.exec s = .ok (a, u) ∧ (g a).exec u = .ok (b, s') := by
  rw [exec_bind] at h
  cases ht : t.exec s with
  | ok r => exact ⟨r.1, r.2, rfl, by rw [ht] at h; exact h⟩
  | error e =>
      rw [ht] at h
      cases h

/-- Reading and going on is going on with what is read. -/
theorem exec_query_bind (f : σ → β) (g : β → Txn σ ε α) (s : σ) :
    (query f >>= g).exec s = (g (f s)).exec s := by simp

/-- A loop of statements that cannot fail is a fold. -/
theorem exec_forEach_update (f : β → σ → σ) (xs : List β) (s : σ) :
    (forEach (fun x => update (f x)) xs : Txn σ ε Unit).exec s =
      .ok ((), xs.foldl (fun s x => f x s) s) := by
  induction xs generalizing s with
  | nil => rfl
  | cons x xs ih => exact ih (f x s)

/-- A loop whose body always commits is a fold of what the body leaves. -/
theorem exec_forEach (body : β → Txn σ ε Unit) (f : β → σ → σ)
    (hbody : ∀ x s, (body x).exec s = .ok ((), f x s)) (xs : List β) (s : σ) :
    (forEach body xs).exec s = .ok ((), xs.foldl (fun s x => f x s) s) := by
  induction xs generalizing s with
  | nil => rfl
  | cons x xs ih =>
      simp only [forEach, exec_bind', hbody]
      exact ih (f x s)

/-- A loop that collects results, when no body fails. -/
theorem exec_forMap (body : β → Txn σ ε γ) (y : β → σ → γ) (f : β → σ → σ)
    (hbody : ∀ x s, (body x).exec s = .ok (y x s, f x s)) (xs : List β) (s : σ) :
    ∃ ys, (forMap body xs).exec s = .ok (ys, xs.foldl (fun s x => f x s) s) := by
  induction xs generalizing s with
  | nil => exact ⟨[], rfl⟩
  | cons x xs ih =>
      obtain ⟨ys, hys⟩ := ih (f x s)
      refine ⟨y x s :: ys, ?_⟩
      simp only [forMap, exec_bind', hbody, hys]
      rfl

/-- The same when the results do not depend on the state. -/
theorem exec_forMap_map (body : β → Txn σ ε γ) (y : β → γ) (f : β → σ → σ)
    (hbody : ∀ x s, (body x).exec s = .ok (y x, f x s)) (xs : List β) (s : σ) :
    (forMap body xs).exec s = .ok (xs.map y, xs.foldl (fun s x => f x s) s) := by
  induction xs generalizing s with
  | nil => rfl
  | cons x xs ih =>
      simp only [forMap, exec_bind', hbody, ih (f x s)]
      rfl

theorem apply_of_ok {t : Txn σ ε α} {s s' : σ} {a : α} (h : t.exec s = .ok (a, s')) :
    t.apply s = s' := by
  simp [apply, h]

theorem apply_of_error {t : Txn σ ε α} {s : σ} {e : ε} (h : t.exec s = .error e) :
    t.apply s = s := by
  simp [apply, h]

/-- An invariant of the statements is an invariant of the program: it holds
of the committed state, and a rollback restores a state where it held. -/
theorem apply_induction {P : σ → Prop} {t : Txn σ ε α} {s : σ} (hs : P s)
    (h : ∀ a s', t.exec s = .ok (a, s') → P s') : P (t.apply s) := by
  cases hexec : t.exec s with
  | error e => rwa [apply_of_error hexec]
  | ok r =>
      obtain ⟨a, s'⟩ := r
      rw [apply_of_ok hexec]
      exact h a s' hexec

/-! ### What every statement does -/

/-- Every statement of the program that changes rows, on whatever state it
runs, changes them as the relation says. -/
def Each (R : σ → σ → Prop) : Txn σ ε α → Prop
  | .commit _ => True
  | .raise _ => True
  | .select k => ∀ s, (k s).Each R
  | .dml f k => (∀ s s' n, f s = .ok (s', n) → R s s') ∧ ∀ n, (k n).Each R

variable {R : σ → σ → Prop}

theorem each_bind {t : Txn σ ε α} {g : α → Txn σ ε β} (ht : t.Each R) (hg : ∀ a, (g a).Each R) :
    (t >>= g).Each R := by
  show (t.bind g).Each R
  induction t with
  | commit a => exact hg a
  | raise e => trivial
  | select k ih => exact fun s => ih s (ht s)
  | dml f k ih => exact ⟨ht.1, fun n => ih n (ht.2 n)⟩

theorem each_query (f : σ → β) : (query f : Txn σ ε β).Each R := fun _ => trivial

theorem each_update {f : σ → σ} (h : ∀ s, R s (f s)) : (update f : Txn σ ε Unit).Each R := by
  refine ⟨fun s s' n hstep => ?_, fun _ => trivial⟩
  cases hstep
  exact h s

theorem each_updateCount {f : σ → σ × Nat} (h : ∀ s, R s (f s).1) :
    (updateCount f : Txn σ ε Nat).Each R := by
  refine ⟨fun s s' n hstep => ?_, fun _ => trivial⟩
  have hfst : (f s).1 = s' := by rw [Except.ok.inj hstep]
  exact hfst ▸ h s

theorem each_insert {f : σ → Except ε σ} (h : ∀ s s', f s = .ok s' → R s s') :
    (insert f).Each R := by
  refine ⟨fun s s' n hstep => ?_, fun _ => trivial⟩
  cases hf : f s with
  | error e => simp [hf, Except.map] at hstep
  | ok s'' =>
      simp only [hf, Except.map, Except.ok.injEq, Prod.mk.injEq] at hstep
      exact hstep.1 ▸ h s s'' hf

theorem each_lift (r : Except ε α) : (lift r : Txn σ ε α).Each R := by
  cases r <;> trivial

theorem each_forEach {body : β → Txn σ ε Unit} {xs : List β} (h : ∀ x ∈ xs, (body x).Each R) :
    (forEach body xs).Each R := by
  induction xs with
  | nil => trivial
  | cons x xs ih =>
      have hxs : (forEach body xs).Each R := ih fun y hy => h y (List.mem_cons_of_mem x hy)
      exact each_bind (h x List.mem_cons_self) fun _ => hxs

/-- The same for a weaker relation. -/
theorem Each.mono {R' : σ → σ → Prop} (h : ∀ s s', R s s' → R' s s') {t : Txn σ ε α}
    (ht : t.Each R) : t.Each R' := by
  induction t with
  | commit a => trivial
  | raise e => trivial
  | select k ih => exact fun s => ih s (ht s)
  | dml f k ih => exact ⟨fun s s' n hstep => h s s' (ht.1 s s' n hstep), fun n => ih n (ht.2 n)⟩

/-- What every statement does, the program does. -/
theorem Each.exec (hrefl : ∀ s, R s s) (htrans : ∀ {s t u}, R s t → R t u → R s u)
    {t : Txn σ ε α} (ht : t.Each R) {s s' : σ} {a : α} (h : t.exec s = .ok (a, s')) : R s s' := by
  induction t generalizing s with
  | commit b =>
      obtain ⟨-, rfl⟩ := Prod.mk.inj (Except.ok.inj h)
      exact hrefl _
  | raise e => cases h
  | select k ih => exact ih s (ht s) h
  | dml f k ih =>
      simp only [Txn.exec] at h
      cases hf : f s with
      | error e =>
          rw [hf] at h
          cases h
      | ok r =>
          rw [hf] at h
          exact htrans (ht.1 s r.1 r.2 hf) (ih r.2 (ht.2 r.2) h)

theorem Each.apply (hrefl : ∀ s, R s s) (htrans : ∀ {s t u}, R s t → R t u → R s u)
    {t : Txn σ ε α} (ht : t.Each R) (s : σ) : R s (t.apply s) :=
  apply_induction (P := R s) (hrefl s) fun _ _ h => ht.exec hrefl htrans h

end Txn

end MarkSdk.Lib
