import MarkSdk.Lib.Dict
import Mathlib.Logic.Function.Basic

/-!
A file that programs find by a path and lock.

Whoever opens the path gets a descriptor of the file that is there. A lock is
one of the file, not of the path, and lasts until its descriptor is closed: a
descriptor may hold the lock of a file that is no longer at the path, while
another one holds that of a newer file. A descriptor owns the path (`Owns`) if
it holds the lock of the file that is there now. At most one does, and it
goes on owning the path whatever the others do, as long as none of them
removes the file.
-/

namespace MarkSdk.Lib

/-- The file at the path, the open descriptors with their files, and for each
file the descriptor with its lock and what is in it. -/
structure LockFile (δ γ : Type) where
  entry : Option Nat := none
  opened : Dict δ Nat := Table.empty
  locker : Nat → Option δ := fun _ => none
  content : Nat → Option γ := fun _ => none

namespace LockFile

variable {δ γ : Type} [DecidableEq δ]

/-- No descriptor is open on a file of this number. -/
def Unused (f : LockFile δ γ) (i : Nat) : Prop := ∀ r ∈ f.opened.rows, r.2 ≠ i

instance decidableUnused (f : LockFile δ γ) (i : Nat) : Decidable (f.Unused i) :=
  inferInstanceAs (Decidable (∀ r ∈ f.opened.rows, r.2 ≠ i))

/-- Opens the path, and makes the file if there is none. Its number is any
that is not in use. -/
def create (f : LockFile δ γ) (d : δ) (fresh : Nat) : Option (LockFile δ γ) :=
  match f.entry with
  | some i => some { f with opened := f.opened.set d i }
  | none =>
      if f.Unused fresh then
        some { f with
          entry := some fresh
          opened := f.opened.set d fresh
          content := Function.update f.content fresh none }
      else none

/-- Opens the path if there is a file. -/
def open? (f : LockFile δ γ) (d : δ) : Option (LockFile δ γ) :=
  f.entry.map fun i => { f with opened := f.opened.set d i }

/-- Locks the file of the descriptor, if no other descriptor has the lock. -/
def tryLock (f : LockFile δ γ) (d : δ) : Option (LockFile δ γ) :=
  match f.opened.get? d with
  | none => none
  | some i =>
      match f.locker i with
      | none => some { f with locker := Function.update f.locker i (some d) }
      | some d' => if d' = d then some f else none

/-- The locks without those of the descriptor. -/
def lockerWithout (f : LockFile δ γ) (d : δ) (i : Nat) : Option δ :=
  if f.locker i = some d then none else f.locker i

def unlock (f : LockFile δ γ) (d : δ) : LockFile δ γ := { f with locker := f.lockerWithout d }

/-- Closes the descriptor, which drops its lock. -/
def close (f : LockFile δ γ) (d : δ) : LockFile δ γ :=
  { f with opened := f.opened.pop d, locker := f.lockerWithout d }

/-- The file of the descriptor is the one at the path. -/
def atPath (f : LockFile δ γ) (d : δ) : Bool :=
  match f.opened.get? d with
  | none => false
  | some i => f.entry = some i

def read (f : LockFile δ γ) (d : δ) : Option γ := (f.opened.get? d).bind f.content

def write (f : LockFile δ γ) (d : δ) (c : Option γ) : LockFile δ γ :=
  match f.opened.get? d with
  | none => f
  | some i => { f with content := Function.update f.content i c }

def unlink (f : LockFile δ γ) : LockFile δ γ := { f with entry := none }

/-- Who holds a lock has the file open. -/
def Sound (f : LockFile δ γ) : Prop := ∀ i d, f.locker i = some d → f.opened.get? d = some i

/-- The descriptor holds the lock of its file. -/
def Locks (f : LockFile δ γ) (d : δ) : Prop :=
  ∃ i, f.opened.get? d = some i ∧ f.locker i = some d

/-- The descriptor holds the lock of the file at the path. -/
def Owns (f : LockFile δ γ) (d : δ) : Prop := ∃ i, f.entry = some i ∧ f.locker i = some d

variable {f g : LockFile δ γ} {d e : δ} {i : Nat}

omit [DecidableEq δ] in
theorem Owns.unique (hd : f.Owns d) (he : f.Owns e) : d = e := by
  obtain ⟨i, hi, hlock⟩ := hd
  obtain ⟨j, hj, hlock'⟩ := he
  rw [hi, Option.some_inj] at hj
  subst hj
  exact Option.some_inj.mp (hlock.symm.trans hlock')

theorem Sound.locks (hf : f.Sound) (h : f.Owns d) : f.Locks d := by
  obtain ⟨i, -, hlock⟩ := h
  exact ⟨i, hf i d hlock, hlock⟩

/-- The lock of the file at the path, seen through the descriptor. -/
theorem Locks.owns (h : f.Locks d) (hpath : f.atPath d = true) : f.Owns d := by
  obtain ⟨i, hopen, hlock⟩ := h
  simp only [atPath, hopen, decide_eq_true_eq] at hpath
  exact ⟨i, hpath, hlock⟩

theorem Sound.atPath_of_owns (hf : f.Sound) (h : f.Owns d) : f.atPath d = true := by
  obtain ⟨i, hentry, hlock⟩ := h
  simp only [atPath, hf i d hlock, hentry, decide_true]

/-- A file that nobody has open is not locked. -/
theorem Sound.locker_eq_none (hf : f.Sound) (hi : f.Unused i) : f.locker i = none := by
  rw [Option.eq_none_iff_forall_ne_some]
  intro d hd
  exact hi (d, i) (Dict.get?_eq_some_iff.mp (hf i d hd)) rfl

theorem lockerWithout_eq_some :
    f.lockerWithout d i = some e ↔ f.locker i = some e ∧ e ≠ d := by
  rw [lockerWithout]
  split
  · rename_i h
    simp only [reduceCtorEq, h, Option.some_inj, ne_eq, false_iff, not_and, not_not]
    exact Eq.symm
  · rename_i h
    exact ⟨fun he => ⟨he, fun heq => h (heq ▸ he)⟩, And.left⟩

/-! ### What an operation of a descriptor does to the others -/

theorem get?_create (h : f.create d i = some g) (he : e ≠ d) :
    g.opened.get? e = f.opened.get? e := by
  rw [create] at h
  split at h
  · cases h
    exact (Dict.get?_set e).trans (if_neg he)
  · split at h
    · cases h
      exact (Dict.get?_set e).trans (if_neg he)
    · cases h

theorem locker_create (h : f.create d i = some g) : g.locker = f.locker := by
  rw [create] at h
  split at h
  · cases h
    rfl
  · split at h
    · cases h
      rfl
    · cases h

theorem Owns.create (hown : f.Owns e) (h : f.create d i = some g) : g.Owns e := by
  obtain ⟨j, hentry, hlock⟩ := hown
  rw [LockFile.create, hentry] at h
  cases h
  exact ⟨j, rfl, hlock⟩

theorem Sound.create (hf : f.Sound) (hd : f.opened.get? d = none) (h : f.create d i = some g) :
    g.Sound := by
  intro j e hlock
  rw [locker_create h] at hlock
  have hopen := hf j e hlock
  have he : e ≠ d := by
    rintro rfl
    rw [hd] at hopen
    cases hopen
  rw [get?_create h he, hopen]

/-- A new descriptor is one of the file that is then at the path. -/
theorem atPath_create (h : f.create d i = some g) : g.atPath d = true := by
  rw [LockFile.create] at h
  split at h
  · rename_i j hentry
    cases h
    simp only [atPath, Dict.get?_set, if_true, hentry, decide_true]
  · split at h
    · cases h
      simp only [atPath, Dict.get?_set, if_true, decide_true]
    · cases h

/-- A file that is at the path stays there when the path is opened. -/
theorem atPath_create_other (h : f.create d i = some g) (he : e ≠ d) (hpath : f.atPath e = true) :
    g.atPath e = true := by
  rw [atPath, get?_create h he]
  rw [atPath] at hpath
  split at hpath
  · cases hpath
  · rename_i j hopen
    rw [decide_eq_true_eq] at hpath
    rw [LockFile.create, hpath] at h
    cases h
    exact decide_eq_true rfl

theorem create_eq_some (h : f.entry ≠ none ∨ f.Unused i) : ∃ g, f.create d i = some g := by
  rw [LockFile.create]
  cases hentry : f.entry with
  | some j => exact ⟨_, rfl⟩
  | none =>
      have hfree : f.Unused i := h.resolve_left fun hne => hne hentry
      exact ⟨_, if_pos hfree⟩

theorem open?_eq_create (h : f.open? d = some g) (i : Nat) : f.create d i = some g := by
  obtain ⟨j, hentry, hg⟩ := Option.map_eq_some_iff.mp h
  rw [create, hentry, ← hg, hentry]

theorem tryLock_eq_some (h : f.tryLock d = some g) :
    ∃ i, f.opened.get? d = some i ∧ (f.locker i = none ∨ f.locker i = some d) ∧
      g = { f with locker := Function.update f.locker i (some d) } := by
  rw [tryLock] at h
  split at h
  · cases h
  · rename_i i hopen
    split at h
    · rename_i hfree
      cases h
      exact ⟨i, hopen, .inl hfree, rfl⟩
    · rename_i d' hlock
      split at h
      · rename_i heq
        cases h
        subst heq
        refine ⟨i, hopen, .inr hlock, ?_⟩
        rw [Function.update_eq_self_iff.mpr hlock.symm]
      · cases h

theorem locks_tryLock (h : f.tryLock d = some g) : g.Locks d := by
  obtain ⟨i, hopen, -, rfl⟩ := tryLock_eq_some h
  exact ⟨i, hopen, Function.update_self ..⟩

/-- A descriptor that is new gets the lock if nobody has that of the file at the path. -/
theorem exists_tryLock (hf : f.Sound) (hfree : ∀ j, f.entry = some j → f.locker j = none)
    (h : f.create d i = some g) : ∃ g', g.tryLock d = some g' := by
  have hlocker := locker_create h
  have hpath := atPath_create h
  rw [atPath] at hpath
  split at hpath
  · cases hpath
  · rename_i j hopen
    have hj : g.locker j = none := by
      rw [hlocker]
      rw [LockFile.create] at h
      split at h
      · rename_i k hentry
        cases h
        rw [Dict.get?_set, if_pos rfl, Option.some_inj] at hopen
        exact hopen ▸ hfree k hentry
      · split at h
        · rename_i hunused
          cases h
          rw [Dict.get?_set, if_pos rfl, Option.some_inj] at hopen
          exact hopen ▸ hf.locker_eq_none hunused
        · cases h
    simp only [LockFile.tryLock, hopen, hj]
    exact ⟨_, rfl⟩

theorem opened_tryLock (h : f.tryLock d = some g) : g.opened = f.opened := by
  obtain ⟨i, -, -, rfl⟩ := tryLock_eq_some h
  rfl

theorem entry_tryLock (h : f.tryLock d = some g) : g.entry = f.entry := by
  obtain ⟨i, -, -, rfl⟩ := tryLock_eq_some h
  rfl

theorem atPath_tryLock (h : f.tryLock d = some g) : g.atPath e = f.atPath e := by
  rw [atPath, atPath, opened_tryLock h, entry_tryLock h]

/-- Another one's lock stays: it is not on a free file. -/
theorem locker_tryLock (h : f.tryLock d = some g) (hlock : f.locker i = some e) :
    g.locker i = some e := by
  obtain ⟨j, -, hfree, rfl⟩ := tryLock_eq_some h
  show Function.update f.locker j (some d) i = some e
  by_cases hij : i = j
  · subst hij
    rw [Function.update_self]
    obtain hnone | hown := hfree
    · rw [hnone] at hlock
      cases hlock
    · exact hown.symm.trans hlock
  · rw [Function.update_of_ne hij, hlock]

theorem Sound.tryLock (hf : f.Sound) (h : f.tryLock d = some g) : g.Sound := by
  obtain ⟨j, hopen, -, rfl⟩ := tryLock_eq_some h
  intro i e hlock
  change Function.update f.locker j (some d) i = some e at hlock
  show f.opened.get? e = some i
  by_cases hij : i = j
  · subst hij
    rw [Function.update_self, Option.some_inj] at hlock
    rw [← hlock, hopen]
  · rw [Function.update_of_ne hij] at hlock
    exact hf i e hlock

theorem Owns.tryLock (hown : f.Owns e) (h : f.tryLock d = some g) : g.Owns e := by
  obtain ⟨i, hentry, hlock⟩ := hown
  exact ⟨i, (entry_tryLock h).trans hentry, locker_tryLock h hlock⟩

theorem Locks.tryLock (hlocks : f.Locks e) (h : f.tryLock d = some g) : g.Locks e := by
  obtain ⟨i, hopen, hlock⟩ := hlocks
  exact ⟨i, by rw [opened_tryLock h, hopen], locker_tryLock h hlock⟩

theorem Locks.create (hlocks : f.Locks e) (h : f.create d i = some g) (he : e ≠ d) :
    g.Locks e := by
  obtain ⟨j, hopen, hlock⟩ := hlocks
  exact ⟨j, by rw [get?_create h he, hopen], by rw [locker_create h, hlock]⟩

theorem Sound.close (hf : f.Sound) : (f.close d).Sound := by
  intro i e hlock
  obtain ⟨hold, hne⟩ := lockerWithout_eq_some.mp hlock
  show (f.opened.pop d).get? e = some i
  rw [Dict.get?_pop, if_neg hne, hf i e hold]

theorem get?_close (he : e ≠ d) : (f.close d).opened.get? e = f.opened.get? e :=
  (Dict.get?_pop e).trans (if_neg he)

theorem atPath_close (he : e ≠ d) : (f.close d).atPath e = f.atPath e := by
  rw [atPath, atPath, get?_close he]
  rfl

theorem Unused.close (h : f.Unused i) : (f.close d).Unused i :=
  fun r hr => h r (Dict.mem_rows_pop hr)

/-- The owner's file is free once its descriptor is closed. -/
theorem locker_close (hown : ∀ e, f.Owns e → e = d) (hentry : f.entry = some i) :
    (f.close d).locker i = none := by
  rw [Option.eq_none_iff_forall_ne_some]
  intro e he
  obtain ⟨hlock, hne⟩ := lockerWithout_eq_some.mp he
  exact hne (hown e ⟨i, hentry, hlock⟩)

theorem get?_close_self : (f.close d).opened.get? d = none := (Dict.get?_pop d).trans (if_pos rfl)

theorem Owns.close (hown : f.Owns e) (he : e ≠ d) : (f.close d).Owns e := by
  obtain ⟨i, hentry, hlock⟩ := hown
  exact ⟨i, hentry, lockerWithout_eq_some.mpr ⟨hlock, he⟩⟩

theorem Locks.close (hlocks : f.Locks e) (he : e ≠ d) : (f.close d).Locks e := by
  obtain ⟨i, hopen, hlock⟩ := hlocks
  exact ⟨i, by rw [get?_close he, hopen], lockerWithout_eq_some.mpr ⟨hlock, he⟩⟩

theorem Sound.unlock (hf : f.Sound) : (f.unlock d).Sound := by
  intro i e hlock
  exact hf i e (lockerWithout_eq_some.mp hlock).1

theorem Owns.unlock (hown : f.Owns e) (he : e ≠ d) : (f.unlock d).Owns e := by
  obtain ⟨i, hentry, hlock⟩ := hown
  exact ⟨i, hentry, lockerWithout_eq_some.mpr ⟨hlock, he⟩⟩

theorem Locks.unlock (hlocks : f.Locks e) (he : e ≠ d) : (f.unlock d).Locks e := by
  obtain ⟨i, hopen, hlock⟩ := hlocks
  exact ⟨i, hopen, lockerWithout_eq_some.mpr ⟨hlock, he⟩⟩

@[simp] theorem entry_write (c : Option γ) : (f.write d c).entry = f.entry := by
  rw [write]
  split <;> rfl

@[simp] theorem opened_write (c : Option γ) : (f.write d c).opened = f.opened := by
  rw [write]
  split <;> rfl

@[simp] theorem locker_write (c : Option γ) : (f.write d c).locker = f.locker := by
  rw [write]
  split <;> rfl

@[simp] theorem atPath_write (c : Option γ) : (f.write d c).atPath e = f.atPath e := by
  rw [atPath, atPath, opened_write, entry_write]

theorem Owns.write (hown : f.Owns e) (c : Option γ) : (f.write d c).Owns e := by
  obtain ⟨i, hentry, hlock⟩ := hown
  exact ⟨i, by rw [entry_write, hentry], by rw [locker_write, hlock]⟩

/-! ### Operations -/

/-- What a descriptor does to the file: an operation of its own, or the
removal of the file whose lock it has. -/
inductive Op (f : LockFile δ γ) (d : δ) : LockFile δ γ → Prop
  | skip : Op f d f
  | create {i : Nat} {g : LockFile δ γ} (hd : f.opened.get? d = none)
      (h : f.create d i = some g) : Op f d g
  | tryLock {g : LockFile δ γ} (h : f.tryLock d = some g) : Op f d g
  | unlock : Op f d (f.unlock d)
  | write (c : Option γ) : Op f d (f.write d c)
  | close : Op f d (f.close d)
  | unlink (h : f.Owns d) : Op f d f.unlink

theorem Op.sound (h : Op f d g) (hf : f.Sound) : g.Sound := by
  cases h with
  | skip => exact hf
  | create hd h => exact hf.create hd h
  | tryLock h => exact hf.tryLock h
  | unlock => exact hf.unlock
  | write c =>
      intro i e hlock
      rw [locker_write] at hlock
      rw [opened_write]
      exact hf i e hlock
  | close => exact hf.close
  | unlink => exact hf

theorem Op.get?_other (h : Op f d g) (he : e ≠ d) : g.opened.get? e = f.opened.get? e := by
  cases h with
  | create _ h => exact get?_create h he
  | tryLock h => rw [opened_tryLock h]
  | write c => rw [opened_write]
  | close => exact get?_close he
  | skip | unlock | unlink => rfl

theorem Op.locks_other (h : Op f d g) (hlocks : f.Locks e) (he : e ≠ d) : g.Locks e := by
  cases h with
  | create _ h => exact hlocks.create h he
  | tryLock h => exact hlocks.tryLock h
  | unlock => exact hlocks.unlock he
  | write c =>
      obtain ⟨i, hopen, hlock⟩ := hlocks
      exact ⟨i, by rw [opened_write, hopen], by rw [locker_write, hlock]⟩
  | close => exact hlocks.close he
  | skip | unlink => exact hlocks

/-- A file with an owner stays at the path, whatever the others do. -/
theorem Op.entry_eq (h : Op f d g) (hown : f.Owns e) (he : e ≠ d) : g.entry = f.entry := by
  obtain ⟨i, hentry, hlock⟩ := hown
  cases h with
  | create _ h =>
      rw [LockFile.create, hentry] at h
      cases h
      exact hentry.symm
  | tryLock h => exact entry_tryLock h
  | write c => exact entry_write c
  | unlink h => exact absurd (Owns.unique ⟨i, hentry, hlock⟩ h) he
  | skip | unlock | close => rfl

/-- The owner stays the owner: a descriptor that removes the file would own it too. -/
theorem Op.owns_other (h : Op f d g) (hown : f.Owns e) (he : e ≠ d) : g.Owns e := by
  cases h with
  | skip => exact hown
  | create _ h => exact hown.create h
  | tryLock h => exact hown.tryLock h
  | unlock => exact hown.unlock he
  | write c => exact hown.write c
  | close => exact hown.close he
  | unlink h => exact absurd (hown.unique h) he

end LockFile

end MarkSdk.Lib
