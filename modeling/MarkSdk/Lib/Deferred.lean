import Mathlib.Data.Fintype.Basic
import Mathlib.Logic.Function.Basic
import MarkSdk.Lib.Transaction

/-!
Deferred transactions: several connections, one database.

Each connection runs one program of `MarkSdk.Lib.Transaction`. A `SELECT`
before the first DML statement runs outside any database transaction and
sees what is committed at that moment. The first DML statement opens the
transaction: it takes the write lock, which at most one connection holds,
and works on a private copy of the committed state until it commits.

Such a run need not be serialisable, because a decision taken on an early
`SELECT` can be stale by the time the lock is held. The theorem of this file
says that staleness is the only way to go wrong: if every step a connection
takes outside its transaction finds that its program, started over on the
committed state, would go on with the same statements (`World.Fresh`), then
the run is the serial execution of the programs in the order in which they
finished, results included (`World.serializable`).
-/

namespace MarkSdk.Lib

/-- One connection: the statements it has not run yet, and its private copy
of the database once a DML statement has opened the transaction. -/
structure Conn (σ ε α : Type) where
  rest : Txn σ ε α
  work : Option σ

/-- The committed database and the connections. -/
structure World (ι σ ε α : Type) where
  committed : σ
  conn : ι → Conn σ ε α

namespace Txn

variable {σ ε α : Type}

/-- No statement is left. -/
def Done : Txn σ ε α → Prop
  | .commit _ => True
  | .raise _ => True
  | .select _ => False
  | .dml _ _ => False

instance decidableDone : DecidablePred (Done : Txn σ ε α → Prop)
  | .commit _ => isTrue trivial
  | .raise _ => isTrue trivial
  | .select _ => isFalse id
  | .dml _ _ => isFalse id

/-- What the program has committed, when it has. -/
def committed? : Txn σ ε α → Option α
  | .commit a => some a
  | _ => none

theorem committed?_lift (r : Except ε α) : (lift r : Txn σ ε α).committed? = r.toOption := by
  cases r <;> rfl

/-- What is left of the program after the reads it starts with, all of them
on the state `s`. -/
def settle : Txn σ ε α → σ → Txn σ ε α
  | .select k, s => (k s).settle s
  | t, _ => t

theorem exec_settle (t : Txn σ ε α) (s : σ) : (t.settle s).exec s = t.exec s := by
  induction t with
  | commit a => rfl
  | raise e => rfl
  | select k ih => exact ih s
  | dml f k _ => rfl

theorem settle_of_done {t : Txn σ ε α} (h : t.Done) (s : σ) : t.settle s = t := by
  cases t with
  | commit a => rfl
  | raise e => rfl
  | select k => exact h.elim
  | dml f k => exact h.elim

/-- A program with no statement left is its result, and changes nothing. -/
theorem exec_of_done {t : Txn σ ε α} (h : t.Done) (s : σ) :
    t = lift (t.outcome s) ∧ t.apply s = s := by
  cases t with
  | commit a => exact ⟨rfl, rfl⟩
  | raise e => exact ⟨rfl, rfl⟩
  | select k => exact h.elim
  | dml f k => exact h.elim

theorem outcome_congr {t u : Txn σ ε α} {s s' : σ} (h : t.exec s = u.exec s') :
    t.outcome s = u.outcome s' := by
  simp [outcome, h]

end Txn

namespace World

variable {ι σ ε α : Type}

/-- All connections at their first statement. -/
def start (p : ι → Txn σ ε α) (init : σ) : World ι σ ε α :=
  { committed := init, conn := fun i => ⟨p i, none⟩ }

/-- Every connection has committed or raised. -/
def Finished (w : World ι σ ε α) : Prop :=
  ∀ i, (w.conn i).work = none ∧ (w.conn i).rest.Done

/-- What connection `i` returned, once it has committed. -/
def returned (w : World ι σ ε α) (i : ι) : Option α := (w.conn i).rest.committed?

/-- Outside its transaction, connection `i` is about to run the statements
that its program `p i` would run if it read the committed state now. -/
def Fresh (p : ι → Txn σ ε α) (w : World ι σ ε α) (i : ι) : Prop :=
  (w.conn i).work = none →
    (p i).settle w.committed = (w.conn i).rest.settle w.committed

/-- The programs one after the other, each one alone. -/
def serial (p : ι → Txn σ ε α) (init : σ) (order : List ι) : σ :=
  order.foldl (fun s i => (p i).apply s) init

@[simp] theorem serial_append (p : ι → Txn σ ε α) (init : σ) (order : List ι) (i : ι) :
    serial p init (order ++ [i]) = (p i).apply (serial p init order) := by
  simp [serial]

/-- The finished connections, in the order they finished, with the results
of their serial execution. -/
structure SerialSoFar (p : ι → Txn σ ε α) (init : σ) (w : World ι σ ε α)
    (order : List ι) : Prop where
  nodup : order.Nodup
  committed : w.committed = serial p init order
  results : ∀ pre i post, order = pre ++ i :: post →
    (w.conn i).rest = Txn.lift ((p i).outcome (serial p init pre))
  closed : ∀ i ∈ order, (w.conn i).work = none
  idle : ∀ i ∉ order, (w.conn i).work = none → ¬ (w.conn i).rest.Done
  working : ∀ i s, (w.conn i).work = some s →
    (w.conn i).rest.exec s = (p i).exec w.committed
  alone : ∀ i j, (w.conn i).work.isSome → (w.conn j).work.isSome → i = j

variable {p : ι → Txn σ ε α} {init : σ} {w w' : World ι σ ε α} {order : List ι} {i : ι}

/-- Programs without a statement change nothing, whatever their order. -/
theorem serial_of_done (h : ∀ i ∈ order, (p i).Done) : serial p init order = init := by
  induction order generalizing init with
  | nil => rfl
  | cons i is ih =>
      have happly := (Txn.exec_of_done (h i List.mem_cons_self) init).2
      simp only [serial, List.foldl_cons, happly]
      exact ih fun j hj => h j (List.mem_cons_of_mem i hj)

/-- The programs without a statement have finished at the start. -/
theorem serialSoFar_start (hnodup : order.Nodup) (horder : ∀ i, i ∈ order ↔ (p i).Done) :
    SerialSoFar p init (start p init) order where
  nodup := hnodup
  committed := (serial_of_done fun i hi => (horder i).mp hi).symm
  results pre i post h := (Txn.exec_of_done ((horder i).mp (by simp [h])) _).1
  closed i _ := rfl
  idle i hi _ := fun hdone => hi ((horder i).mpr hdone)
  working i s h := by simp [start] at h
  alone i j h _ := by simp [start] at h

/-- A connection that still has statements to run has not been listed. -/
theorem SerialSoFar.not_mem (h : SerialSoFar p init w order)
    (hrest : ¬ (w.conn i).rest.Done) : i ∉ order := by
  intro hi
  obtain ⟨pre, post, hsplit⟩ := List.append_of_mem hi
  apply hrest
  rw [h.results pre i post hsplit]
  cases (p i).outcome (serial p init pre) <;> trivial

instance decidableFinished [Fintype ι] (w : World ι σ ε α) : Decidable w.Finished :=
  decidable_of_iff (∀ i, (w.conn i).work.isNone ∧ (w.conn i).rest.Done) <| by
    simp only [Finished, Option.isNone_iff_eq_none]

variable [DecidableEq ι]

def set (w : World ι σ ε α) (i : ι) (c : Conn σ ε α) : World ι σ ε α :=
  { w with conn := Function.update w.conn i c }

@[simp] theorem set_conn_self (c : Conn σ ε α) : (w.set i c).conn i = c := by
  simp [set]

theorem set_conn_ne {j : ι} (h : j ≠ i) (c : Conn σ ε α) : (w.set i c).conn j = w.conn j := by
  simp [set, h]

@[simp] theorem set_committed (c : Conn σ ε α) : (w.set i c).committed = w.committed := rfl

/-- A connection that has not finished goes on: it keeps its place outside
the order, and nothing else moves. -/
theorem SerialSoFar.goOn (h : SerialSoFar p init w order) (hi : i ∉ order) (c : Conn σ ε α)
    (hidle : c.work = none → ¬ c.rest.Done)
    (hwork : ∀ s, c.work = some s → c.rest.exec s = (p i).exec w.committed)
    (halone : c.work.isSome → ∀ j, (w.conn j).work.isSome → j = i) :
    SerialSoFar p init (w.set i c) order where
  nodup := h.nodup
  committed := h.committed
  results pre j post hsplit := by
    have hj : j ≠ i := by
      rintro rfl
      exact hi (by simp [hsplit])
    rw [set_conn_ne hj]
    exact h.results pre j post hsplit
  closed j hj := by
    have hne : j ≠ i := fun e => hi (e ▸ hj)
    rw [set_conn_ne hne]
    exact h.closed j hj
  idle j hj := by
    by_cases hne : j = i
    · subst hne
      simpa using hidle
    · rw [set_conn_ne hne]
      exact h.idle j hj
  working j s := by
    by_cases hne : j = i
    · subst hne
      simpa using hwork s
    · rw [set_conn_ne hne]
      exact h.working j s
  alone j k hj hk := by
    by_cases hji : j = i <;> by_cases hki : k = i
    · rw [hji, hki]
    · subst hji
      rw [set_conn_ne hki] at hk
      exact (halone (by simpa using hj) k hk).symm
    · subst hki
      rw [set_conn_ne hji] at hj
      exact halone (by simpa using hk) j hj
    · rw [set_conn_ne hji] at hj
      rw [set_conn_ne hki] at hk
      exact h.alone j k hj hk

/-- A connection finishes: its program, run alone on the committed state,
gives this result and leaves this state. -/
theorem SerialSoFar.finish (h : SerialSoFar p init w order) (hi : i ∉ order)
    (rest : Txn σ ε α) (s : σ)
    (hrest : rest = Txn.lift ((p i).outcome w.committed))
    (hs : (p i).apply w.committed = s)
    (hother : ∀ j, j ≠ i → (w.conn j).work = none ∨ s = w.committed) :
    SerialSoFar p init { w.set i ⟨rest, none⟩ with committed := s } (order ++ [i]) where
  nodup := by
    rw [List.nodup_append]
    refine ⟨h.nodup, List.nodup_singleton i, ?_⟩
    intro a ha b hb
    rw [List.mem_singleton] at hb
    subst hb
    exact fun e => hi (e ▸ ha)
  committed := by
    rw [serial_append, ← h.committed, hs]
  results pre j post hsplit := by
    rcases List.eq_nil_or_concat post with rfl | ⟨post', k, rfl⟩
    · obtain ⟨hpre, hij⟩ := List.append_inj' hsplit rfl
      obtain rfl : i = j := by simpa using hij
      have : serial p init pre = w.committed := by rw [← hpre, ← h.committed]
      simpa [set, this] using hrest
    · have hsplit' : order ++ [i] = (pre ++ j :: post') ++ [k] := by
        rw [hsplit]
        simp
      obtain ⟨horder, -⟩ := List.append_inj' hsplit' rfl
      have hj : j ≠ i := by
        rintro rfl
        exact hi (by simp [horder])
      have := h.results pre j post' horder
      simpa [set, hj] using this
  closed j hj := by
    by_cases hne : j = i
    · subst hne
      simp [set]
    · have hj' : j ∈ order := by simpa [hne] using hj
      simpa [set, hne] using h.closed j hj'
  idle j hj := by
    have hne : j ≠ i := fun e => hj (by simp [e])
    have hj' : j ∉ order := fun e => hj (by simp [e])
    simpa [set, hne] using h.idle j hj'
  working j s' hj := by
    by_cases hne : j = i
    · subst hne
      simp [set] at hj
    · have hj' : (w.conn j).work = some s' := by simpa [set, hne] using hj
      rcases hother j hne with hnone | hsame
      · rw [hnone] at hj'
        cases hj'
      · subst hsame
        simpa [set, hne] using h.working j s' hj'
  alone j k hj hk := by
    have hji : j ≠ i := by
      rintro rfl
      simp [set] at hj
    have hki : k ≠ i := by
      rintro rfl
      simp [set] at hk
    exact h.alone j k (by simpa [set, hji] using hj) (by simpa [set, hki] using hk)

/-- A connection whose program raises on the committed state rolls back. -/
theorem SerialSoFar.rollback (h : SerialSoFar p init w order) (hi : i ∉ order) (e : ε)
    (hexec : (p i).exec w.committed = .error e) :
    SerialSoFar p init (w.set i ⟨.raise e, none⟩) (order ++ [i]) :=
  h.finish hi (.raise e) w.committed (by simp [Txn.outcome, hexec, Txn.lift])
    (Txn.apply_of_error hexec) (fun _ _ => .inr rfl)

variable [Fintype ι]

/-- Some connection holds the write lock. -/
def Locked (w : World ι σ ε α) : Prop := ∃ i, (w.conn i).work.isSome

instance (w : World ι σ ε α) : Decidable w.Locked :=
  inferInstanceAs (Decidable (∃ i, (w.conn i).work.isSome))

/-- Connection `i` runs its next statement; `none` when it has none left, or
when it needs the write lock and another connection holds it. -/
def step (w : World ι σ ε α) (i : ι) : Option (World ι σ ε α) :=
  match (w.conn i).rest, (w.conn i).work with
  | .select k, none => some (w.set i ⟨k w.committed, none⟩)
  | .select k, some s => some (w.set i ⟨k s, some s⟩)
  | .dml f k, none =>
      if w.Locked then none
      else match f w.committed with
        | .ok (s, n) => some (w.set i ⟨k n, some s⟩)
        | .error e => some (w.set i ⟨.raise e, none⟩)
  | .dml f k, some s =>
      match f s with
      | .ok (s', n) => some (w.set i ⟨k n, some s'⟩)
      | .error e => some (w.set i ⟨.raise e, none⟩)
  | .commit a, some s => some { w.set i ⟨.commit a, none⟩ with committed := s }
  | .raise e, some _ => some (w.set i ⟨.raise e, none⟩)
  | .commit _, none => none
  | .raise _, none => none

/-- The statements of the connections in the order a schedule gives. -/
def run : List ι → World ι σ ε α → Option (World ι σ ε α)
  | [], w => some w
  | i :: is, w => (w.step i).bind (run is)

/-- Every step of a schedule is fresh. -/
def FreshRun (p : ι → Txn σ ε α) : List ι → World ι σ ε α → Prop
  | [], _ => True
  | i :: is, w => Fresh p w i ∧ ∀ w', w.step i = some w' → FreshRun p is w'

/-- One fresh step. A connection that finishes with it is the last one so far. -/
theorem SerialSoFar.step (h : SerialSoFar p init w order) (hfresh : Fresh p w i)
    (hstep : w.step i = some w') :
    ∃ order', SerialSoFar p init w' order' ∧ (i ∈ order' → order'.getLast? = some i) := by
  have hlast : i ∈ order ++ [i] → (order ++ [i]).getLast? = some i := fun _ => by simp
  have hlift : ∀ {t : Txn σ ε α}, (p i).settle w.committed = t →
      t.exec w.committed = (p i).exec w.committed := by
    rintro t rfl
    exact Txn.exec_settle _ _
  have hnotdone : ∀ {t : Txn σ ε α}, (w.conn i).rest = t → ¬ t.Done → i ∉ order := by
    rintro t rfl hdone
    exact h.not_mem hdone
  rw [World.step] at hstep
  cases hrest : (w.conn i).rest with
  | select k =>
      have hi : i ∉ order := hnotdone hrest id
      cases hwork : (w.conn i).work with
      | none =>
          simp only [hrest, hwork, Option.some.injEq] at hstep
          subst hstep
          by_cases hdone : (k w.committed).Done
          · -- the last read: the connection finishes without a transaction
            have hsettle : (p i).settle w.committed = k w.committed := by
              rw [hfresh hwork, hrest]
              exact Txn.settle_of_done hdone _
            have hexec := hlift hsettle
            have := Txn.exec_of_done hdone w.committed
            refine ⟨order ++ [i], h.finish hi (k w.committed) w.committed ?_ ?_
              (fun _ _ => .inr rfl), hlast⟩
            · rw [← Txn.outcome_congr hexec]
              exact this.1
            · have happly : (p i).apply w.committed = (k w.committed).apply w.committed := by
                simp [Txn.apply, hexec]
              rw [happly]
              exact this.2
          · exact ⟨order, h.goOn hi _ (fun _ => hdone) (by simp) (by simp),
              fun hmem => absurd hmem hi⟩
      | some s =>
          simp only [hrest, hwork, Option.some.injEq] at hstep
          subst hstep
          refine ⟨order, h.goOn hi _ (by simp) ?_ ?_, fun hmem => absurd hmem hi⟩
          · intro s' hs'
            obtain rfl : s = s' := by simpa using hs'
            rw [← h.working i s hwork, hrest]
            rfl
          · intro _ j hj
            exact h.alone j i hj (by simp [hwork])
  | dml f k =>
      have hi : i ∉ order := hnotdone hrest id
      cases hwork : (w.conn i).work with
      | none =>
          simp only [hrest, hwork] at hstep
          split at hstep
          · cases hstep
          · rename_i hfree
            -- BEGIN: the statements decided on are those of the present state
            have hsettle : (p i).settle w.committed = .dml f k := by
              rw [hfresh hwork, hrest]
              rfl
            have hexec := hlift hsettle
            cases hf : f w.committed with
            | ok r =>
                simp only [hf, Option.some.injEq] at hstep
                subst hstep
                simp only [Txn.exec, hf] at hexec
                refine ⟨order, h.goOn hi _ (by simp) ?_ ?_, fun hmem => absurd hmem hi⟩
                · intro s' hs'
                  obtain rfl : r.1 = s' := by simpa using hs'
                  exact hexec
                · intro _ j hj
                  exact absurd ⟨j, hj⟩ hfree
            | error e =>
                simp only [hf, Option.some.injEq] at hstep
                subst hstep
                simp only [Txn.exec, hf] at hexec
                exact ⟨order ++ [i], h.rollback hi e hexec.symm, hlast⟩
      | some s =>
          have hexec := h.working i s hwork
          rw [hrest] at hexec
          simp only [hrest, hwork] at hstep
          cases hf : f s with
          | ok r =>
              simp only [hf, Option.some.injEq] at hstep
              subst hstep
              simp only [Txn.exec, hf] at hexec
              refine ⟨order, h.goOn hi _ (by simp) ?_ ?_, fun hmem => absurd hmem hi⟩
              · intro s'' hs''
                obtain rfl : r.1 = s'' := by simpa using hs''
                exact hexec
              · intro _ j hj
                exact h.alone j i hj (by simp [hwork])
          | error e =>
              simp only [hf, Option.some.injEq] at hstep
              subst hstep
              simp only [Txn.exec, hf] at hexec
              exact ⟨order ++ [i], h.rollback hi e hexec.symm, hlast⟩
  | commit a =>
      cases hwork : (w.conn i).work with
      | none => simp [hrest, hwork] at hstep
      | some s =>
          have hexec := h.working i s hwork
          rw [hrest] at hexec
          simp only [hrest, hwork, Option.some.injEq] at hstep
          subst hstep
          have hi : i ∉ order := by
            intro hmem
            have := h.closed i hmem
            simp [hwork] at this
          refine ⟨order ++ [i], h.finish hi (.commit a) s ?_ ?_ ?_, hlast⟩
          · simp [Txn.outcome, ← hexec, Txn.lift]
          · exact Txn.apply_of_ok hexec.symm
          · intro j hj
            cases hjw : (w.conn j).work with
            | none => exact .inl rfl
            | some s' => exact absurd (h.alone j i (by simp [hjw]) (by simp [hwork])) hj
  | raise e =>
      cases hwork : (w.conn i).work with
      | none => simp [hrest, hwork] at hstep
      | some s =>
          have hexec := h.working i s hwork
          rw [hrest] at hexec
          simp only [hrest, hwork, Option.some.injEq] at hstep
          subst hstep
          have hi : i ∉ order := by
            intro hmem
            have := h.closed i hmem
            simp [hwork] at this
          exact ⟨order ++ [i], h.rollback hi e hexec.symm, hlast⟩

/-- A whole fresh run. -/
theorem SerialSoFar.run {sched : List ι} (h : SerialSoFar p init w order)
    (hfresh : FreshRun p sched w) (hrun : run sched w = some w') :
    ∃ order', SerialSoFar p init w' order' ∧
      ∀ i, sched.getLast? = some i → i ∈ order' → order'.getLast? = some i := by
  induction sched generalizing w order with
  | nil =>
      simp only [World.run, Option.some.injEq] at hrun
      subst hrun
      exact ⟨order, h, fun i hi => nomatch hi⟩
  | cons i is ih =>
      simp only [World.run] at hrun
      cases hstep : w.step i with
      | none => simp [hstep] at hrun
      | some m =>
          simp only [hstep, Option.bind_some] at hrun
          obtain ⟨order', h', hlast⟩ := h.step hfresh.1 hstep
          cases is with
          | nil =>
              simp only [World.run, Option.some.injEq] at hrun
              subst hrun
              refine ⟨order', h', fun j hj => ?_⟩
              obtain rfl : i = j := by simpa using hj
              exact hlast
          | cons j is => simpa using ih h' (hfresh.2 m hstep) hrun

/-- A fresh run that has finished is the serial execution of its programs in
some order: the same final database, and every program returns what it
returns there. The connection that ran the last statement is the last one. -/
theorem serializable {sched : List ι}
    (hfresh : FreshRun p sched (start p init)) (hrun : run sched (start p init) = some w)
    (hfin : w.Finished) :
    ∃ order : List ι, order.Nodup ∧ (∀ i, i ∈ order) ∧
      (∀ i, sched.getLast? = some i → order.getLast? = some i) ∧
      w.committed = serial p init order ∧
      ∀ pre i post, order = pre ++ i :: post →
        (w.conn i).rest = Txn.lift ((p i).outcome (serial p init pre)) := by
  classical
  let first := (Finset.univ.filter fun i => (p i).Done).toList
  have hfirst : SerialSoFar p init (start p init) first :=
    serialSoFar_start (Finset.nodup_toList _) (by simp [first])
  obtain ⟨order, h, hlast⟩ := hfirst.run hfresh hrun
  have hall : ∀ i, i ∈ order := fun i => by
    by_contra hi
    exact h.idle i hi (hfin i).1 (hfin i).2
  exact ⟨order, h.nodup, hall, fun i hi => hlast i hi (hall i), h.committed, h.results⟩

/-! ### Schedules without interleaving -/

theorem run_append (is js : List ι) (w : World ι σ ε α) :
    run (is ++ js) w = (run is w).bind (run js) := by
  induction is generalizing w with
  | nil => rfl
  | cons i is ih =>
      rw [List.cons_append, run, run]
      cases w.step i with
      | none => rfl
      | some m => exact ih m

theorem step_of_done (hwork : (w.conn i).work = none) (hdone : (w.conn i).rest.Done) :
    w.step i = none := by
  rw [step, hwork]
  cases hrest : (w.conn i).rest with
  | commit a | raise e => rfl
  | select k | dml f k =>
      rw [hrest] at hdone
      exact hdone.elim

theorem step_conn_ne {j : ι} (hstep : w.step i = some w') (h : j ≠ i) :
    w'.conn j = w.conn j := by
  rw [step] at hstep
  split at hstep <;> (try split at hstep) <;> (try split at hstep) <;> cases hstep <;>
    exact set_conn_ne h _

theorem run_conn_ne {n : ℕ} {j : ι} (hrun : run (List.replicate n i) w = some w') (h : j ≠ i) :
    w'.conn j = w.conn j := by
  induction n generalizing w with
  | zero =>
      cases hrun
      rfl
  | succ n ih =>
      rw [List.replicate_succ, run] at hrun
      obtain ⟨m, hm, hrest⟩ := Option.bind_eq_some_iff.mp hrun
      rw [ih hrest, step_conn_ne hm h]

/-- A fresh connection that takes a step is fresh again, or has finished. -/
theorem Fresh.step (hfresh : Fresh p w i) (hstep : w.step i = some w') :
    Fresh p w' i ∨ w'.step i = none := by
  have hdone : ∀ {c : Conn σ ε α}, w'.conn i = c → c.work = none → c.rest.Done →
      w'.step i = none := by
    rintro c rfl hwork hrest
    exact step_of_done hwork hrest
  rw [World.step] at hstep
  cases hrest : (w.conn i).rest with
  | select k =>
      refine .inl ?_
      cases hwork : (w.conn i).work with
      | none =>
          simp only [hrest, hwork, Option.some.injEq] at hstep
          subst hstep
          intro _
          have hsettle := hfresh hwork
          rw [hrest] at hsettle
          rw [set_committed, set_conn_self]
          exact hsettle
      | some s =>
          simp only [hrest, hwork, Option.some.injEq] at hstep
          subst hstep
          intro hnone
          simp at hnone
  | dml f k =>
      cases hwork : (w.conn i).work with
      | none =>
          simp only [hrest, hwork] at hstep
          split at hstep
          · cases hstep
          · split at hstep <;> cases hstep
            · exact .inl fun hnone => by simp at hnone
            · exact .inr (hdone (set_conn_self _) rfl trivial)
      | some s =>
          simp only [hrest, hwork] at hstep
          split at hstep <;> cases hstep
          · exact .inl fun hnone => by simp at hnone
          · exact .inr (hdone (set_conn_self _) rfl trivial)
  | commit a =>
      cases hwork : (w.conn i).work with
      | none => simp [hrest, hwork] at hstep
      | some s =>
          simp only [hrest, hwork, Option.some.injEq] at hstep
          subst hstep
          have hconn : ({ w.set i ⟨.commit a, none⟩ with committed := s } : World ι σ ε α).conn i =
              ⟨.commit a, none⟩ := set_conn_self _
          exact .inr (hdone hconn rfl trivial)
  | raise e =>
      cases hwork : (w.conn i).work with
      | none => simp [hrest, hwork] at hstep
      | some s =>
          simp only [hrest, hwork, Option.some.injEq] at hstep
          subst hstep
          exact .inr (hdone (set_conn_self _) rfl trivial)

/-- A connection whose statements run without a break is fresh all along. -/
theorem Fresh.block {n : ℕ} (hfresh : Fresh p w i)
    (hrun : run (List.replicate n i) w = some w') : FreshRun p (List.replicate n i) w := by
  induction n generalizing w with
  | zero => trivial
  | succ n ih =>
      rw [List.replicate_succ, run] at hrun
      obtain ⟨m, hm, hrest⟩ := Option.bind_eq_some_iff.mp hrun
      refine ⟨hfresh, fun m' hm' => ?_⟩
      obtain rfl : m = m' := Option.some.inj (hm.symm.trans hm')
      rcases hfresh.step hm with hagain | hstuck
      · exact ih hagain hrest
      · cases n with
        | zero => trivial
        | succ n =>
            rw [List.replicate_succ, run, hstuck] at hrest
            cases hrest

theorem freshRun_append {is js : List ι} :
    FreshRun p (is ++ js) w ↔
      FreshRun p is w ∧ ∀ m, run is w = some m → FreshRun p js m := by
  induction is generalizing w with
  | nil => simp [FreshRun, run]
  | cons i is ih =>
      simp only [List.cons_append, FreshRun, run, ih, Option.bind_eq_some_iff]
      constructor
      · rintro ⟨hi, hrest⟩
        exact ⟨⟨hi, fun m hm => (hrest m hm).1⟩, fun m' ⟨m, hm, hrun⟩ => (hrest m hm).2 m' hrun⟩
      · rintro ⟨⟨hi, his⟩, hjs⟩
        exact ⟨hi, fun m hm => ⟨his m hm, fun m' hrun => hjs m' ⟨m, hm, hrun⟩⟩⟩

/-- One connection after the other is a fresh run. -/
theorem freshRun_serial {n m : ℕ} {j : ι} (hij : j ≠ i)
    (hrun : run (List.replicate n i ++ List.replicate m j) (start p init) = some w) :
    FreshRun p (List.replicate n i ++ List.replicate m j) (start p init) := by
  rw [run_append] at hrun
  obtain ⟨mid, hfirst, hsecond⟩ := Option.bind_eq_some_iff.mp hrun
  have hstart : ∀ {v : World ι σ ε α} {k : ι}, v.conn k = ⟨p k, none⟩ → Fresh p v k := by
    intro v k hconn _
    rw [hconn]
  refine freshRun_append.mpr ⟨(hstart rfl).block hfirst, fun mid' hmid' => ?_⟩
  obtain rfl : mid = mid' := Option.some.inj (hfirst.symm.trans hmid')
  refine Fresh.block (hstart ?_) hsecond
  rw [run_conn_ne hfirst hij]
  rfl

end World

/-- The two sides of a race. -/
inductive Side | left | right
  deriving DecidableEq, Repr

instance : Fintype Side := ⟨{.left, .right}, fun i => by cases i <;> simp⟩

def Side.other : Side → Side
  | .left => .right
  | .right => .left

/-- Two programs can be put one after the other in two ways. -/
theorem Side.orders {order : List Side} (hnodup : order.Nodup) (hall : ∀ i, i ∈ order) :
    order = [.left, .right] ∨ order = [.right, .left] := by
  match order, hnodup, hall with
  | [], _, hall => simpa using hall .left
  | [a], _, hall =>
      have hl := hall .left
      have hr := hall .right
      simp only [List.mem_singleton] at hl hr
      exact absurd (hl.trans hr.symm) (by decide)
  | [a, b], hnodup, _ =>
      cases a <;> cases b <;> simp_all
  | a :: b :: c :: l, hnodup, _ =>
      cases a <;> cases b <;> cases c <;> simp_all

/-- A fresh run of two programs that has finished is one of them and then the
other, which reads what the first one has committed. -/
theorem World.serializable_pair {σ ε α : Type} {p : Side → Txn σ ε α} {init : σ}
    {sched : List Side} {w : World Side σ ε α} (hfresh : FreshRun p sched (start p init))
    (hrun : World.run sched (start p init) = some w) (hfin : w.Finished) :
    ∃ last : Side, (∀ i, sched.getLast? = some i → i = last) ∧
      w.committed = (p last).apply ((p last.other).apply init) ∧
      w.returned last.other = ((p last.other).outcome init).toOption ∧
      w.returned last = ((p last).outcome ((p last.other).apply init)).toOption := by
  obtain ⟨order, hnodup, hall, hlast, hcommitted, hresults⟩ := serializable hfresh hrun hfin
  have horder : ∃ last : Side, order = [last.other, last] := by
    rcases Side.orders hnodup hall with rfl | rfl
    · exact ⟨.right, rfl⟩
    · exact ⟨.left, rfl⟩
  obtain ⟨last, rfl⟩ := horder
  refine ⟨last, fun i hi => ?_, hcommitted, ?_, ?_⟩
  · have hsome := hlast i hi
    simpa using hsome.symm
  · unfold returned
    rw [hresults [] last.other [last] rfl, Txn.committed?_lift]
    rfl
  · unfold returned
    rw [hresults [last.other] last [] rfl, Txn.committed?_lift]
    rfl

end MarkSdk.Lib
