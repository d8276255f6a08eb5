import Mathlib.Logic.Function.Basic
import MarkSdk.Lib.Runs
import MarkSdk.Lib.Transaction

/-!
Clients of a shared store that take turns.

A client is a program of reads and writes. Each of them happens at one go,
and between any two of them the other clients may run. A write carries a
label that says what the client is doing with it. A transaction makes its
first `SELECT`s as reads of their own; from its first DML statement on it
holds the write lock and becomes visible when it commits, so the rest of it
is one write (`Client.txn`).

`Client.Honest` says that the writes of a client do what their labels say.
What every honest write keeps under a condition on its label, every run of
honest clients keeps in which the condition is met (`Pool.invariant`).
-/

namespace MarkSdk.Lib

/-- A program of reads and labelled writes of the state `σ`. -/
inductive Client (L σ ε α : Type) : Type
  | done (a : α)
  | raise (e : ε)
  | select (k : σ → Client L σ ε α)
  | write (label : L) (f : σ → σ) (k : σ → Client L σ ε α)

namespace Client

variable {L σ ε α β : Type}

def bind : Client L σ ε α → (α → Client L σ ε β) → Client L σ ε β
  | .done a, g => g a
  | .raise e, _ => .raise e
  | .select k, g => .select fun s => (k s).bind g
  | .write l f k, g => .write l f fun s => (k s).bind g

instance : Monad (Client L σ ε) where
  pure := .done
  bind := .bind

def read (f : σ → α) : Client L σ ε α := .select fun s => .done (f s)

def ofExcept : Except ε α → Client L σ ε α
  | .ok a => .done a
  | .error e => .raise e

/-- One transaction: its first reads, and then the rest at one go. -/
def txn (l : L) : Txn σ ε α → Client L σ ε α
  | .commit a => .done a
  | .raise e => .raise e
  | .select k => .select fun s => txn l (k s)
  | .dml f k => .write l (Txn.dml f k).apply fun s => ofExcept ((Txn.dml f k).outcome s)

/-- `for x in xs: body(x)` -/
def forEach (body : β → Client L σ ε Unit) : List β → Client L σ ε Unit
  | [] => .done ()
  | x :: xs => (body x).bind fun _ => forEach body xs

/-- `[body(x) for x in xs]` -/
def forMap (body : β → Client L σ ε α) : List β → Client L σ ε (List α)
  | [] => .done []
  | x :: xs => (body x).bind fun y => (forMap body xs).bind fun ys => .done (y :: ys)

/-- `if b: body` -/
def when (b : Bool) (body : Client L σ ε Unit) : Client L σ ε Unit := if b then body else .done ()

/-- `try: ... except`: the error becomes a result. -/
def attempt : Client L σ ε α → Client L σ ε (Except ε α)
  | .done a => .done (.ok a)
  | .raise e => .done (.error e)
  | .select k => .select fun s => (k s).attempt
  | .write l f k => .write l f fun s => (k s).attempt

def returned : Client L σ ε α → Option α
  | .done a => some a
  | _ => none

/-! ### Alone -/

/-- What the client returns or raises when nobody else runs, and the state it
leaves. -/
def run : Client L σ ε α → σ → Except ε α × σ
  | .done a, s => (.ok a, s)
  | .raise e, s => (.error e, s)
  | .select k, s => (k s).run s
  | .write _ f k, s => (k s).run (f s)

/-- The state that the client leaves. -/
def after (c : Client L σ ε α) (s : σ) : σ := (c.run s).2

@[simp] theorem run_pure (a : α) (s : σ) : (pure a : Client L σ ε α).run s = (.ok a, s) := rfl

@[simp] theorem run_raise (e : ε) (s : σ) :
    (raise e : Client L σ ε α).run s = (.error e, s) := rfl

@[simp] theorem run_read (f : σ → α) (s : σ) :
    (read f : Client L σ ε α).run s = (.ok (f s), s) := rfl

theorem run_bind' (c : Client L σ ε α) (g : α → Client L σ ε β) (s : σ) :
    (c.bind g).run s =
      match c.run s with
      | (.ok a, s') => (g a).run s'
      | (.error e, s') => (.error e, s') := by
  induction c generalizing s with
  | done a => rfl
  | raise e => rfl
  | select k ih => exact ih s s
  | write l f k ih => exact ih s (f s)

@[simp] theorem run_bind (c : Client L σ ε α) (g : α → Client L σ ε β) (s : σ) :
    (c >>= g).run s =
      match c.run s with
      | (.ok a, s') => (g a).run s'
      | (.error e, s') => (.error e, s') :=
  run_bind' c g s

@[simp] theorem run_ofExcept (r : Except ε α) (s : σ) :
    (ofExcept r : Client L σ ε α).run s = (r, s) := by
  cases r <;> rfl

/-- After a first part that returns. -/
theorem after_bind {c : Client L σ ε α} {g : α → Client L σ ε β} {s t : σ} {a : α}
    (h : c.run s = (.ok a, t)) : (c >>= g).after s = (g a).after t := by
  unfold after
  rw [run_bind, h]

/-- What both parts keep. -/
theorem after_bind_of {I : σ → Prop} {c : Client L σ ε α} {g : α → Client L σ ε β} {s : σ}
    (hc : I (c.after s)) (hg : ∀ a t, I t → I ((g a).after t)) : I ((c >>= g).after s) := by
  unfold after at hc ⊢
  rw [run_bind]
  cases h : c.run s with
  | mk r t =>
      rw [h] at hc
      cases r with
      | ok a => exact hg a t hc
      | error e => exact hc

/-- A computation on the result changes nothing. -/
theorem after_bind_pure (c : Client L σ ε α) (g : α → β) (s : σ) :
    (c >>= fun a => (pure (g a) : Client L σ ε β)).after s = c.after s := by
  unfold after
  rw [run_bind]
  cases h : c.run s with
  | mk r t => cases r <;> rfl

/-- Alone, a transaction is what `Txn.exec` says. -/
@[simp] theorem run_txn (l : L) (t : Txn σ ε α) (s : σ) :
    (txn l t).run s = (t.outcome s, t.apply s) := by
  induction t with
  | commit a => rfl
  | raise e => rfl
  | select k ih => exact ih s
  | dml f k => exact run_ofExcept _ _

/-! ### Labels -/

/-- Every write of the client does what its label says, whatever the state. -/
def Honest (R : L → σ → σ → Prop) : Client L σ ε α → Prop
  | .done _ => True
  | .raise _ => True
  | .select k => ∀ s, (k s).Honest R
  | .write l f k => (∀ s, R l s (f s)) ∧ ∀ s, (k s).Honest R

variable {R : L → σ → σ → Prop}

theorem honest_bind {c : Client L σ ε α} {g : α → Client L σ ε β} (hc : c.Honest R)
    (hg : ∀ a, (g a).Honest R) : (c >>= g).Honest R := by
  show (c.bind g).Honest R
  induction c with
  | done a => exact hg a
  | raise e => trivial
  | select k ih => exact fun s => ih s (hc s)
  | write l f k ih => exact ⟨hc.1, fun s => ih s (hc.2 s)⟩

theorem honest_read (f : σ → α) : (read f : Client L σ ε α).Honest R := fun _ => trivial

theorem honest_ofExcept (r : Except ε α) : (ofExcept r : Client L σ ε α).Honest R := by
  cases r <;> trivial

/-- A transaction is honest when its statements are. -/
theorem honest_txn {l : L} (hrefl : ∀ s, R l s s) (htrans : ∀ {s t u}, R l s t → R l t u → R l s u)
    {t : Txn σ ε α} (ht : t.Each (R l)) : (txn l t).Honest R := by
  induction t with
  | commit a => trivial
  | raise e => trivial
  | select k ih => exact fun s => ih s (ht s)
  | dml f k => exact ⟨fun s => ht.apply hrefl htrans s, fun s => honest_ofExcept _⟩

theorem honest_forEach {body : β → Client L σ ε Unit} (h : ∀ x, (body x).Honest R) (xs : List β) :
    (forEach body xs).Honest R := by
  induction xs with
  | nil => trivial
  | cons x xs ih => exact honest_bind (h x) fun _ => ih

theorem honest_forMap {body : β → Client L σ ε α} (h : ∀ x, (body x).Honest R) (xs : List β) :
    (forMap body xs).Honest R := by
  induction xs with
  | nil => trivial
  | cons x xs ih => exact honest_bind (h x) fun _ => honest_bind ih fun _ => trivial

theorem honest_when {b : Bool} {body : Client L σ ε Unit} (h : body.Honest R) :
    (when b body).Honest R := by
  unfold when
  split
  · exact h
  · trivial

theorem honest_attempt {c : Client L σ ε α} (hc : c.Honest R) : c.attempt.Honest R := by
  induction c with
  | done a => trivial
  | raise e => trivial
  | select k ih => exact fun s => ih s (hc s)
  | write l f k ih => exact ⟨hc.1, fun s => ih s (hc.2 s)⟩

/-! ### Invariants -/

/-- Every write keeps the invariant, whatever the states in which the client
reads and writes as long as they meet it, and what the client returns meets
the postcondition. -/
def Keeps (J : σ → Prop) (Q : α → Prop) : Client L σ ε α → Prop
  | .done a => Q a
  | .raise _ => True
  | .select k => ∀ s, J s → (k s).Keeps J Q
  | .write _ f k => ∀ s, J s → J (f s) ∧ (k s).Keeps J Q

variable {J : σ → Prop} {Q : α → Prop} {Q' : β → Prop}

theorem keeps_pure {a : α} (h : Q a) : (pure a : Client L σ ε α).Keeps J Q := h

theorem keeps_bind {c : Client L σ ε α} {g : α → Client L σ ε β} (hc : c.Keeps J Q)
    (hg : ∀ a, Q a → (g a).Keeps J Q') : (c >>= g).Keeps J Q' := by
  show (c.bind g).Keeps J Q'
  induction c with
  | done a => exact hg a hc
  | raise e => trivial
  | select k ih => exact fun s hs => ih s (hc s hs)
  | write l f k ih => exact fun s hs => ⟨(hc s hs).1, ih s (hc s hs).2⟩

theorem keeps_read {f : σ → α} (h : ∀ s, J s → Q (f s)) :
    (read f : Client L σ ε α).Keeps J Q := h

theorem keeps_ofExcept {r : Except ε α} (h : ∀ a, r = .ok a → Q a) :
    (ofExcept r : Client L σ ε α).Keeps J Q := by
  cases r with
  | ok a => exact h a rfl
  | error e => trivial

/-- A transaction keeps what its statements keep. -/
theorem keeps_txn {l : L} {t : Txn σ ε α} (ht : t.Each fun s s' => J s → J s') :
    (txn l t).Keeps J fun _ => True := by
  induction t with
  | commit a => trivial
  | raise e => trivial
  | select k ih => exact fun s _ => ih s (ht s)
  | dml f k =>
      refine fun s hs => ⟨?_, keeps_ofExcept fun _ _ => trivial⟩
      exact ht.apply (R := fun s s' => J s → J s') (fun _ h => h)
        (fun hst htu h => htu (hst h)) s hs

theorem Keeps.mono {c : Client L σ ε α} {P : α → Prop} (h : ∀ a, Q a → P a) (hc : c.Keeps J Q) :
    c.Keeps J P := by
  induction c with
  | done a => exact h a hc
  | raise e => trivial
  | select k ih => exact fun s hs => ih s (hc s hs)
  | write l f k ih => exact fun s hs => ⟨(hc s hs).1, ih s (hc s hs).2⟩

theorem keeps_when {b : Bool} {body : Client L σ ε Unit}
    (h : body.Keeps J fun _ => True) : (when b body).Keeps J fun _ => True := by
  unfold when
  split
  · exact h
  · trivial

theorem keeps_forEach {body : β → Client L σ ε Unit} {xs : List β}
    (h : ∀ x ∈ xs, (body x).Keeps J fun _ => True) : (forEach body xs).Keeps J fun _ => True := by
  induction xs with
  | nil => trivial
  | cons x xs ih =>
      have hxs : (forEach body xs).Keeps J fun _ => True :=
        ih fun y hy => h y (List.mem_cons_of_mem x hy)
      exact keeps_bind (h x List.mem_cons_self) fun _ _ => hxs

theorem keeps_forMap {body : β → Client L σ ε α} {xs : List β}
    (h : ∀ x ∈ xs, (body x).Keeps J Q) : (forMap body xs).Keeps J fun ys => ∀ y ∈ ys, Q y := by
  induction xs with
  | nil => exact fun y hy => absurd hy List.not_mem_nil
  | cons x xs ih =>
      have hxs : (forMap body xs).Keeps J fun ys => ∀ y ∈ ys, Q y :=
        ih fun y hy => h y (List.mem_cons_of_mem x hy)
      refine keeps_bind (h x List.mem_cons_self) fun y hy => keeps_bind hxs fun ys hys => ?_
      exact List.forall_mem_cons.mpr ⟨hy, hys⟩

/-- Both postconditions hold. -/
theorem Keeps.and {c : Client L σ ε α} {P : α → Prop} (hc : c.Keeps J Q) (hd : c.Keeps J P) :
    c.Keeps J fun a => Q a ∧ P a := by
  induction c with
  | done a => exact ⟨hc, hd⟩
  | raise e => trivial
  | select k ih => exact fun s hs => ih s (hc s hs) (hd s hs)
  | write l f k ih => exact fun s hs => ⟨(hc s hs).1, ih s (hc s hs).2 (hd s hs).2⟩

/-- Alone, what the client returns meets the postcondition. -/
theorem Keeps.result {c : Client L σ ε α} (hc : c.Keeps J Q) {s s' : σ} (hs : J s) {a : α}
    (h : c.run s = (.ok a, s')) : Q a := by
  induction c generalizing s with
  | done b =>
      obtain ⟨hb, -⟩ := Prod.mk.inj h
      exact Except.ok.inj hb ▸ hc
  | raise e => cases (Prod.mk.inj h).1
  | select k ih => exact ih s (hc s hs) hs h
  | write l f k ih => exact ih s (hc s hs).2 (hc s hs).1 h

/-- Alone, the client leaves a state that meets the invariant. -/
theorem Keeps.after {c : Client L σ ε α} (hc : c.Keeps J Q) {s : σ} (hs : J s) :
    J (c.after s) := by
  unfold Client.after
  induction c generalizing s with
  | done a => exact hs
  | raise e => exact hs
  | select k ih => exact ih s (hc s hs) hs
  | write l f k ih => exact ih s (hc s hs).2 (hc s hs).1

/-! ### What a result tells -/

/-- The client returns a result of the kind `P` only with a write that has
brought about `I`, if it is made where the condition holds. -/
def Leads (P : α → Prop) (C : L → σ → Prop) (I : σ → Prop) : Client L σ ε α → Prop
  | .done a => ¬ P a
  | .raise _ => True
  | .select k => ∀ s, (k s).Leads P C I
  | .write l f k => ∀ s, C l s → ((∃ a, k s = .done a) ∧ I (f s)) ∨ (k s).Leads P C I

section Leads

variable {P : β → Prop} {C : L → σ → Prop} {I : σ → Prop}

/-- A client that is one transaction. -/
theorem leads_txn {l : L} {f : σ → Except ε (σ × Nat)} {k : Nat → Txn σ ε α} (g : α → β)
    (h : ∀ s a s', C l s → (Txn.dml f k).exec s = .ok (a, s') → I s') :
    ((txn l (Txn.dml f k)).bind fun a => .done (g a)).Leads P C I := by
  intro s hC
  cases hexec : (Txn.dml f k).exec s with
  | ok r =>
      obtain ⟨a, s'⟩ := r
      have houtcome : (Txn.dml f k).outcome s = .ok a := by simp only [Txn.outcome, hexec]
      refine .inl ⟨⟨g a, ?_⟩, ?_⟩
      · show (ofExcept ((Txn.dml f k).outcome s)).bind _ = _
        rw [houtcome]
        rfl
      · rw [Txn.apply_of_ok hexec]
        exact h s a s' hC hexec
  | error e =>
      right
      have houtcome : (Txn.dml f k).outcome s = .error e := by simp only [Txn.outcome, hexec]
      show ((ofExcept ((Txn.dml f k).outcome s)).bind _).Leads P C I
      rw [houtcome]
      trivial

end Leads

/-! ### Clients that only read -/

/-- The client writes nothing and raises nothing. -/
def Reads : Client L σ ε α → Prop
  | .done _ => True
  | .raise _ => False
  | .select k => ∀ s, (k s).Reads
  | .write _ _ _ => False

theorem reads_bind {c : Client L σ ε α} {g : α → Client L σ ε β} (hc : c.Reads)
    (hg : ∀ a, (g a).Reads) : (c >>= g).Reads := by
  show (c.bind g).Reads
  induction c with
  | done a => exact hg a
  | raise e | write l f k => exact hc.elim
  | select k ih => exact fun s => ih s (hc s)

theorem reads_read (f : σ → α) : (read f : Client L σ ε α).Reads := fun _ => trivial

theorem Reads.keeps {c : Client L σ ε α} (hc : c.Reads) : c.Keeps J fun _ => True := by
  induction c with
  | done a => trivial
  | raise e | write l f k => exact hc.elim
  | select k ih => exact fun s _ => ih s (hc s)

/-- Alone, it returns something and leaves the state as it is. -/
theorem Reads.run {c : Client L σ ε α} (hc : c.Reads) (s : σ) : ∃ a, c.run s = (.ok a, s) := by
  induction c with
  | done a => exact ⟨a, rfl⟩
  | raise e | write l f k => exact hc.elim
  | select k ih => exact ih s (hc s)

/-! ### Clients that do not write -/

/-- The client writes nothing. -/
def Quiet : Client L σ ε α → Prop
  | .done _ => True
  | .raise _ => True
  | .select k => ∀ s, (k s).Quiet
  | .write _ _ _ => False

theorem quiet_read (f : σ → α) : (read f : Client L σ ε α).Quiet := fun _ => trivial

theorem quiet_ofExcept (r : Except ε α) : (ofExcept r : Client L σ ε α).Quiet := by
  cases r <;> trivial

theorem quiet_bind {c : Client L σ ε α} {g : α → Client L σ ε β} (hc : c.Quiet)
    (hg : ∀ a, (g a).Quiet) : (c >>= g).Quiet := by
  show (c.bind g).Quiet
  induction c with
  | done a => exact hg a
  | raise e => trivial
  | select k ih => exact fun s => ih s (hc s)
  | write l f k => exact hc.elim

/-- Alone, it leaves the state as it is. -/
theorem Quiet.after {c : Client L σ ε α} (hc : c.Quiet) (s : σ) : (c.run s).2 = s := by
  induction c with
  | done a | raise e => rfl
  | select k ih => exact ih s (hc s)
  | write l f k => exact hc.elim

/-- What a client returns after its first part. -/
theorem run_bind_eq_ok {c : Client L σ ε α} {g : α → Client L σ ε β} {s s' : σ} {b : β}
    (h : (c >>= g).run s = (.ok b, s')) :
    ∃ a t, c.run s = (.ok a, t) ∧ (g a).run t = (.ok b, s') := by
  rw [run_bind] at h
  cases hc : c.run s with
  | mk r t =>
      rw [hc] at h
      cases r with
      | ok a => exact ⟨a, t, rfl, h⟩
      | error e => cases (Prod.mk.inj h).1

theorem Quiet.run_bind_eq_ok {c : Client L σ ε α} (hc : c.Quiet) {g : α → Client L σ ε β}
    {s s' : σ} {b : β} (h : (c >>= g).run s = (.ok b, s')) :
    ∃ a, c.run s = (.ok a, s) ∧ (g a).run s = (.ok b, s') := by
  obtain ⟨a, t, hrun, hrest⟩ := Client.run_bind_eq_ok h
  have ht : t = s := by rw [← hc.after s, hrun]
  subst ht
  exact ⟨a, hrun, hrest⟩

/-! ### Killed clients -/

/-- How many writes the client has made, and the state that it leaves, when
it is killed after `n` reads and writes. -/
def killed : Nat → Client L σ ε α → σ → Nat × σ
  | 0, _, s => (0, s)
  | _ + 1, .done _, s => (0, s)
  | _ + 1, .raise _, s => (0, s)
  | n + 1, .select k, s => (k s).killed n s
  | n + 1, .write _ f k, s => (((k s).killed n (f s)).1 + 1, ((k s).killed n (f s)).2)

/-- The client can be killed after so many writes and with this state. -/
def Dies : Client L σ ε α → σ → Nat × σ → Prop
  | .done _, s, r => r = (0, s)
  | .raise _, s, r => r = (0, s)
  | .select k, s, r => (k s).Dies s r
  | .write _ f k, s, r => r = (0, s) ∨ ∃ m t, r = (m + 1, t) ∧ (k s).Dies (f s) (m, t)

theorem dies_zero (c : Client L σ ε α) (s : σ) : c.Dies s (0, s) := by
  induction c with
  | done a | raise e => rfl
  | select k ih => exact ih s
  | write l f k => exact .inl rfl

theorem dies_killed (n : Nat) (c : Client L σ ε α) (s : σ) : c.Dies s (c.killed n s) := by
  induction c generalizing n s with
  | done a | raise e => cases n <;> rfl
  | select k ih =>
      cases n with
      | zero => exact dies_zero (k s) s
      | succ n => exact ih s n s
  | write l f k ih =>
      cases n with
      | zero => exact .inl rfl
      | succ n => exact .inr ⟨_, _, rfl, ih s n (f s)⟩

/-- Killed at any moment, the client leaves a state that meets the invariant. -/
theorem Keeps.dies {c : Client L σ ε α} (hc : c.Keeps J Q) {s : σ} (hs : J s) {r : Nat × σ}
    (h : c.Dies s r) : J r.2 := by
  induction c generalizing s r with
  | done a | raise e =>
      obtain rfl : r = (0, s) := h
      exact hs
  | select k ih => exact ih s (hc s hs) hs h
  | write l f k ih =>
      rcases h with rfl | ⟨m, t, rfl, hrest⟩
      · exact hs
      · have hend : J (m, t).2 := ih s (hc s hs).2 (hc s hs).1 hrest
        exact hend

theorem Quiet.dies {c : Client L σ ε α} (hc : c.Quiet) {s : σ} {r : Nat × σ} (h : c.Dies s r) :
    r = (0, s) := by
  induction c with
  | done a | raise e => exact h
  | select k ih => exact ih s (hc s) h
  | write l f k => exact hc.elim

/-- How many writes the client makes when nobody else runs. -/
def writes : Client L σ ε α → σ → Nat
  | .done _, _ => 0
  | .raise _, _ => 0
  | .select k, s => (k s).writes s
  | .write _ f k, s => (k s).writes (f s) + 1

theorem Quiet.writes {c : Client L σ ε α} (hc : c.Quiet) (s : σ) : c.writes s = 0 := by
  induction c with
  | done a | raise e => rfl
  | select k ih => exact ih s (hc s)
  | write l f k => exact hc.elim

theorem writes_bind {c : Client L σ ε α} {g : α → Client L σ ε β} {s t : σ} {a : α}
    (h : c.run s = (.ok a, t)) : (c >>= g).writes s = c.writes s + (g a).writes t := by
  show (c.bind g).writes s = _
  induction c generalizing s with
  | done b =>
      obtain ⟨hb, rfl⟩ := Prod.mk.inj h
      obtain rfl := Except.ok.inj hb
      exact (Nat.zero_add _).symm
  | raise e => cases (Prod.mk.inj h).1
  | select k ih => exact ih s h
  | write l f k ih =>
      show ((k s).bind g).writes (f s) + 1 = (k s).writes (f s) + 1 + _
      rw [ih s h, Nat.add_right_comm]

/-- Killed in its first part, or after it. -/
theorem dies_bind {c : Client L σ ε α} {g : α → Client L σ ε β} {s : σ} {r : Nat × σ}
    (h : (c >>= g).Dies s r) :
    c.Dies s r ∨ ∃ a t r', c.run s = (.ok a, t) ∧ (g a).Dies t r' ∧
      r = (c.writes s + r'.1, r'.2) := by
  change (c.bind g).Dies s r at h
  induction c generalizing s r with
  | done a => exact .inr ⟨a, s, r, rfl, h, by rw [writes, Nat.zero_add]⟩
  | raise e => exact .inl h
  | select k ih => exact ih s h
  | write l f k ih =>
      rcases h with rfl | ⟨m, t, rfl, hrest⟩
      · exact .inl (.inl rfl)
      · rcases ih s hrest with hfirst | ⟨a, t', r', hrun, hsecond, heq⟩
        · exact .inl (.inr ⟨m, t, rfl, hfirst⟩)
        · obtain ⟨rfl, rfl⟩ := Prod.mk.inj heq
          refine .inr ⟨a, t', r', hrun, hsecond, ?_⟩
          rw [writes, Nat.add_right_comm]

/-- Killed once it has ended. -/
theorem dies_run (c : Client L σ ε α) (s : σ) : c.Dies s (c.writes s, (c.run s).2) := by
  induction c generalizing s with
  | done a | raise e => rfl
  | select k ih => exact ih s s
  | write l f k ih => exact .inr ⟨_, _, rfl, ih s (f s)⟩

/-- A computation on the result adds no step. -/
theorem dies_bind_pure {c : Client L σ ε α} {g : α → β} {s : σ} {r : Nat × σ}
    (h : (c >>= fun a => (pure (g a) : Client L σ ε β)).Dies s r) : c.Dies s r := by
  rcases dies_bind h with hfirst | ⟨a, t, r', hrun, hsecond, rfl⟩
  · exact hfirst
  · obtain rfl : r' = (0, t) := hsecond
    have hend := dies_run c s
    rw [hrun] at hend
    exact hend

theorem Quiet.dies_bind {c : Client L σ ε α} (hc : c.Quiet) {g : α → Client L σ ε β} {s : σ}
    {r : Nat × σ} (h : (c >>= g).Dies s r) :
    r = (0, s) ∨ ∃ a, c.run s = (.ok a, s) ∧ (g a).Dies s r := by
  rcases Client.dies_bind h with hfirst | ⟨a, t, r', hrun, hsecond, rfl⟩
  · exact .inl (hc.dies hfirst)
  · have ht : t = s := by rw [← hc.after s, hrun]
    subst ht
    rw [hc.writes, Nat.zero_add]
    exact .inr ⟨a, hrun, hsecond⟩

/-- A transaction is killed before it commits or after it. -/
theorem dies_txn {l : L} {t : Txn σ ε α} {s : σ} {r : Nat × σ} (h : (txn l t).Dies s r) :
    r = (0, s) ∨ r = (1, ((txn l t).run s).2) := by
  induction t with
  | commit a | raise e => exact .inl h
  | select k ih => exact ih s h
  | dml f k =>
      rcases h with rfl | ⟨m, u, rfl, hrest⟩
      · exact .inl rfl
      · obtain ⟨rfl, rfl⟩ := Prod.mk.inj ((quiet_ofExcept _).dies hrest)
        rw [run_txn]
        exact .inr rfl

end Client

/-! ### Clients taking turns -/

structure Pool (ι L σ ε α : Type) where
  state : σ
  client : ι → Client L σ ε α

namespace Pool

variable {ι L σ ε α : Type} [DecidableEq ι]

/-- Client `i` makes its next read or write; one that has ended does nothing. -/
def step (i : ι) (p : Pool ι L σ ε α) : Pool ι L σ ε α :=
  match p.client i with
  | .done _ => p
  | .raise _ => p
  | .select k => { p with client := Function.update p.client i (k p.state) }
  | .write _ f k =>
      { state := f p.state, client := Function.update p.client i (k p.state) }

/-- The label of the next step of client `i`, when it is a write. -/
def nextWrite (p : Pool ι L σ ε α) (i : ι) : Option L :=
  match p.client i with
  | .write l _ _ => some l
  | _ => none

/-- The next write of a client meets the condition on the state it finds. -/
def Meets (C : L → σ → Prop) (i : ι) (p : Pool ι L σ ε α) : Prop :=
  ∀ l, p.nextWrite i = some l → C l p.state

instance decidableMeets (C : L → σ → Prop) [∀ l s, Decidable (C l s)] (i : ι)
    (p : Pool ι L σ ε α) : Decidable (p.Meets C i) :=
  match h : p.nextWrite i with
  | some l => decidable_of_iff (C l p.state) (by simp [Meets, h])
  | none => isTrue (by simp [Meets, h])

variable {R : L → σ → σ → Prop} {C : L → σ → Prop} {I : σ → Prop} {p : Pool ι L σ ε α}

theorem step_client_ne {i j : ι} (h : j ≠ i) : (p.step i).client j = p.client j := by
  unfold step
  cases p.client i with
  | done a | raise e => rfl
  | select k | write l f k => exact Function.update_of_ne h _ _

theorem step_honest (h : ∀ i, (p.client i).Honest R) (i j : ι) :
    ((p.step i).client j).Honest R := by
  by_cases hj : j = i
  · subst hj
    have hclient := h j
    unfold step
    cases hnext : p.client j with
    | done a | raise e => simpa only [hnext] using hclient
    | select k =>
        rw [hnext] at hclient
        simpa using hclient p.state
    | write l f k =>
        rw [hnext] at hclient
        simpa using hclient.2 p.state
  · rw [step_client_ne hj]
    exact h j

/-- One step changes the state as the label of a write says, if it does. -/
theorem step_state (h : ∀ i, (p.client i).Honest R) (i : ι) :
    (p.step i).state = p.state ∨
      ∃ l, p.nextWrite i = some l ∧ R l p.state (p.step i).state := by
  have hclient := h i
  unfold step nextWrite
  cases hnext : p.client i with
  | done a | raise e | select k => exact .inl rfl
  | write l f k =>
      rw [hnext] at hclient
      exact .inr ⟨l, rfl, hclient.1 p.state⟩

/-- What honest writes keep under a condition, the clients keep as long as
their writes meet it. -/
theorem invariant (hkeep : ∀ l s s', I s → C l s → R l s s' → I s')
    (hhonest : ∀ i, (p.client i).Honest R) {is : List ι}
    (hmeets : Along (fun i q => q.step i) (Meets C) is p) (hI : I p.state) :
    I (run (fun i q => q.step i) is p).state := by
  have hboth : I (run (fun i q => q.step i) is p).state ∧
      ∀ i, ((run (fun i q => q.step i) is p).client i).Honest R := by
    refine hmeets.invariant (I := fun q => I q.state ∧ ∀ i, (q.client i).Honest R) ?_
      ⟨hI, hhonest⟩
    rintro i q ⟨hq, hhonest⟩ hmeets
    refine ⟨?_, step_honest hhonest i⟩
    rcases step_state hhonest i with hsame | ⟨l, hl, hstep⟩
    · rw [hsame]
      exact hq
    · exact hkeep l q.state (q.step i).state hq (hmeets l hl) hstep
  exact hboth.1

/-- Client `i` has returned a result of the kind `P`, and `I` holds since, or
it still leads to `I`. -/
def Settled (P : α → Prop) (C : L → σ → Prop) (I : σ → Prop) (i : ι)
    (p : Pool ι L σ ε α) : Prop :=
  (∃ a, p.client i = .done a ∧ P a ∧ I p.state) ∨ (p.client i).Leads P C I

theorem step_leads {P : α → Prop} {i : ι} (hleads : (p.client i).Leads P C I)
    (hmeets : p.Meets C i) : (p.step i).Settled P C I i := by
  have hnext : ∀ l, p.nextWrite i = some l → C l p.state := hmeets
  unfold nextWrite at hnext
  unfold Settled step
  cases hclient : p.client i with
  | done a | raise e =>
      rw [hclient] at hleads
      right
      simp only [hclient]
      exact hleads
  | select k =>
      rw [hclient] at hleads
      right
      simpa using hleads p.state
  | write l f k =>
      rw [hclient] at hleads hnext
      simp only [Function.update_self]
      rcases hleads p.state (hnext l rfl) with ⟨⟨a, hdone⟩, hI⟩ | hrest
      · by_cases hP : P a
        · exact .inl ⟨a, hdone, hP, hI⟩
        · right
          rw [hdone]
          exact hP
      · exact .inr hrest

/-- Once a client that leads to `I` has returned, `I` holds, if what the
others write from then on keeps it. The condition on a write may depend on
what this client has returned so far. -/
theorem holds_of_returned {P : α → Prop} {C : Option α → L → σ → Prop} {i : ι}
    (hkeep : ∀ a l s s', P a → I s → C (some a) l s → R l s s' → I s')
    (hhonest : ∀ i, (p.client i).Honest R) (hleads : (p.client i).Leads P (C none) I) {is : List ι}
    (hmeets : Along (fun i q => q.step i) (fun j q => q.Meets (C (q.client i).returned) j) is p)
    {a : α} (ha : P a)
    (hreturned : ((run (fun i q => q.step i) is p).client i).returned = some a) :
    I (run (fun i q => q.step i) is p).state := by
  have hinv : (run (fun i q => q.step i) is p).Settled P (C none) I i ∧
      ∀ j, ((run (fun i q => q.step i) is p).client j).Honest R := by
    refine hmeets.invariant (I := fun q => q.Settled P (C none) I i ∧
      ∀ j, (q.client j).Honest R) ?_ ⟨.inr hleads, hhonest⟩
    rintro j q ⟨hq, hhonest⟩ hmeets
    refine ⟨?_, step_honest hhonest j⟩
    rcases hq with ⟨b, hdone, hP, hI⟩ | hleads
    · -- it has returned: nobody destroys `I`
      rw [hdone] at hmeets
      refine .inl ⟨b, ?_, hP, ?_⟩
      · by_cases hij : i = j
        · subst hij
          unfold step
          simp only [hdone]
        · rw [step_client_ne hij, hdone]
      · rcases step_state hhonest j with hsame | ⟨l, hl, hstep⟩
        · rw [hsame]
          exact hI
        · exact hkeep b l q.state (q.step j).state hP hI (hmeets l hl) hstep
    · by_cases hij : i = j
      · subst hij
        cases hclient : q.client i with
        | done b | raise e =>
            right
            unfold step
            simp only [hclient] at hleads ⊢
            exact hleads
        | select k | write l f k =>
            rw [hclient] at hmeets
            exact step_leads hleads hmeets
      · right
        rw [step_client_ne hij]
        exact hleads
  rcases hinv.1 with ⟨b, -, -, hI⟩ | hleads
  · exact hI
  · cases hclient : (run (fun i q => q.step i) is p).client i with
    | done b =>
        rw [hclient] at hleads hreturned
        exact absurd (Option.some.inj hreturned ▸ ha) hleads
    | raise e | select k | write l f k =>
        rw [hclient] at hreturned
        cases hreturned

end Pool

end MarkSdk.Lib
