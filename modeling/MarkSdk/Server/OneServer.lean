import MarkSdk.Server.Lock
import MarkSdk.Lib.Runs

/-!
At most one server for a database.

A call that has found its locked file at the path owns the path, and the only
calls that remove the lock file or touch the state file are those that own
the path. Nothing that the other calls do, or a kill, takes it away from them.
-/

namespace MarkSdk

open Lib

/-- The calls that have no descriptor of the lock file. -/
def ServePc.outside : ServePc → Bool
  | .idle | .trying _ | .probeFree | .done _ => true
  | _ => false

namespace ServeHost

variable {calls : Nat → ServerState} {s t : ServeHost} {a b : Nat} {act : ServeAction}

/-! ### The kinds of steps -/

/-- A step that touches no file. Only behind a successful test of the path
does a call get from outside to where the path is owned. -/
structure Walk (s : ServeHost) (a : Nat) (pc : ServePc) : Prop where
  outside : pc.outside = true → (s.pc a).outside = true
  holds : pc.holds = true →
    (s.pc a).holds = true ∨ (∃ left, s.pc a = .locked left) ∧ s.lock.atPath a = true
  published : pc.published = true → (s.pc a).published = true
  locked : ∀ left, pc ≠ .locked left
  written : pc ≠ .written

/-- What a step of the call `a` makes of the calls and the files. -/
inductive Effect (calls : Nat → ServerState) (s : ServeHost) (a : Nat) : ServeHost → Prop
  | stay : Effect calls s a s
  | walk {pc : ServePc} (h : s.Walk a pc) : Effect calls s a (s.goto a pc)
  | leave {pc : ServePc} (h : pc.outside = true) : Effect calls s a (s.closing a pc)
  | create {pc : ServePc} {inode : Nat} {lock : LockFile Nat Nat}
      (hpc : pc = .probing ∨ ∃ left, pc = .opened left) (hout : (s.pc a).outside = true)
      (h : s.lock.create a inode = some lock) : Effect calls s a { s.goto a pc with lock }
  | take {pc : ServePc} {lock : LockFile Nat Nat}
      (hpc : pc = .probeLocked ∨ ∃ left, pc = .locked left)
      (h : s.lock.tryLock a = some lock) : Effect calls s a { s.goto a pc with lock }
  | unlock : Effect calls s a { s.goto a .probeUnlocked with lock := s.lock.unlock a }
  | write {pc : ServePc} (content : Option Nat) (hpc : pc = .truncated ∨ pc = .holding)
      (hown : (s.pc a).holds = true) :
      Effect calls s a { s.goto a pc with lock := s.lock.write a content }
  | openTmp (hown : (s.pc a).holds = true) :
      Effect calls s a
        { s.goto a .writing with tmp := Function.update s.tmp (calls a).pid (some none) }
  | dump (hown : (s.pc a).holds = true) :
      Effect calls s a
        { s.goto a .written with
          tmp := Function.update s.tmp (calls a).pid (some (some (calls a))) }
  | replace {content : Option ServerState} (hpc : s.pc a = .written)
      (h : s.tmp (calls a).pid = some content) :
      Effect calls s a
        { s.goto a .serving with
          state := some content
          tmp := Function.update s.tmp (calls a).pid none }
  | removeState (ok : Bool) (hpc : s.pc a = .ours) :
      Effect calls s a
        { s.goto a (.releasing .stopped) with state := if ok then none else s.state }
  | removeLock {outcome : ServeEnd} (hpc : s.pc a = .releasing outcome) :
      Effect calls s a
        { s.goto a (.removed outcome) with lock := s.lock.unlink, removals := a :: s.removals }

/-- A move between two places that are both outside, both with the path owned,
or from where it is owned to where it is not. -/
theorem Walk.of (pc : ServePc) (h : (pc.outside = true → (s.pc a).outside = true) ∧
    (pc.holds = true → (s.pc a).holds = true) ∧ (pc.published = true → (s.pc a).published = true) ∧
    (∀ left, pc ≠ .locked left) ∧ pc ≠ .written) : s.Walk a pc :=
  ⟨h.1, fun hpc => .inl (h.2.1 hpc), h.2.2.1, h.2.2.2.1, h.2.2.2.2⟩

theorem Walk.test {left : Nat} (hpc : s.pc a = .locked left) :
    s.Walk a (if s.lock.atPath a then .same else .stale left) := by
  split
  · rename_i hpath
    exact ⟨by simp [ServePc.outside], fun _ => .inr ⟨⟨left, hpc⟩, hpath⟩,
      by simp [ServePc.published], by simp, by simp⟩
  · exact .of _ (by simp [ServePc.outside, ServePc.holds, ServePc.published])

theorem effect_advance : Effect calls s a (s.advance calls a act) := by
  unfold advance
  split
  all_goals rename_i hpc
  -- the test of the path, and the calls that may fail
  case h_8 => exact .walk (.test hpc)
  case h_15 | h_20 =>
    refine .walk (.of _ ?_)
    split <;> simp [hpc, ServePc.outside, ServePc.holds, ServePc.published]
  case h_21 => exact .removeState _ hpc
  all_goals try split
  all_goals first
    | exact .stay
    | exact .leave rfl
    | exact .unlock
    | exact .walk (.of _ (by simp [hpc, ServePc.outside, ServePc.holds, ServePc.published]))
    | exact .write _ (by simp) (by rw [hpc]; rfl)
    | exact .openTmp (by rw [hpc]; rfl)
    | exact .dump (by rw [hpc]; rfl)
    | exact .removeLock hpc
    | exact .replace hpc ‹_›
    | exact .create (.inr ⟨_, rfl⟩) (by rw [hpc]; rfl) ‹_›
    | exact .create (.inl rfl) (by rw [hpc]; rfl) (LockFile.open?_eq_create ‹_› 0)
    | exact .take (.inr ⟨_, rfl⟩) ‹_›
    | exact .take (.inl rfl) ‹_›

namespace Effect

theorem pc_other (h : Effect calls s a t) (hb : b ≠ a) : t.pc b = s.pc b := by
  cases h <;> first | rfl | exact Function.update_of_ne hb ..

/-- Only a call that owns the path touches the state file. -/
theorem state_eq (h : Effect calls s a t) (hpc : (s.pc a).holds = false) : t.state = s.state := by
  cases h with
  | replace h | removeState ok h =>
      rw [h] at hpc
      cases hpc
  | _ => rfl

theorem tmp_eq (h : Effect calls s a t) (hpc : (s.pc a).holds = false) : t.tmp = s.tmp := by
  cases h with
  | openTmp h | dump h =>
      rw [h] at hpc
      cases hpc
  | replace h =>
      rw [h] at hpc
      cases hpc
  | _ => rfl

end Effect

/-! ### The invariant -/

/-- What holds of a call where it is. -/
structure At (calls : Nat → ServerState) (s : ServeHost) (a : Nat) : Prop where
  outside : (s.pc a).outside = true → s.lock.opened.get? a = none
  locked : ∀ left, s.pc a = .locked left → s.lock.Locks a
  owns : (s.pc a).holds = true → s.lock.Owns a
  published : (s.pc a).published = true → s.state = some (some (calls a))
  written : s.pc a = .written → s.tmp (calls a).pid = some (some (calls a))

structure Sound (calls : Nat → ServerState) (s : ServeHost) : Prop where
  lock : s.lock.Sound
  whole : s.state ≠ some none
  at_all : ∀ a, s.At calls a

theorem Sound.holds_unique (hs : s.Sound calls) (ha : (s.pc a).holds = true)
    (hb : (s.pc b).holds = true) : a = b :=
  ((hs.at_all a).owns ha).unique ((hs.at_all b).owns hb)

theorem holds_of_published {pc : ServePc} (h : pc.published = true) : pc.holds = true := by
  cases pc <;> first | rfl | cases h

theorem Sound.op (hs : s.Sound calls) (h : Effect calls s a t) : s.lock.Op a t.lock := by
  cases h with
  | create _ hout h => exact .create ((hs.at_all a).outside hout) h
  | take _ h => exact .tryLock h
  | unlock => exact .unlock
  | write content => exact .write content
  | leave => exact .close
  | removeLock hpc => exact .unlink ((hs.at_all a).owns (by rw [hpc]; rfl))
  | stay | walk | openTmp | dump | replace | removeState => exact .skip

/-- The others are where they were, and what held of them holds: while one of
them owns the path, `a` does not. -/
theorem Sound.at_other (hs : s.Sound calls) (h : Effect calls s a t) (hb : b ≠ a) :
    t.At calls b := by
  have hop := hs.op h
  have hpc := h.pc_other hb
  have hold := hs.at_all b
  have hnot : (s.pc b).holds = true → (s.pc a).holds = false := by
    intro hholds
    rw [← Bool.not_eq_true]
    exact fun ha => hb (hs.holds_unique hholds ha)
  refine ⟨?_, ?_, ?_, ?_, ?_⟩
  · intro hout
    rw [hpc] at hout
    rw [hop.get?_other hb]
    exact hold.outside hout
  · intro left hleft
    rw [hpc] at hleft
    exact hop.locks_other (hold.locked left hleft) hb
  · intro hholds
    rw [hpc] at hholds
    exact hop.owns_other (hold.owns hholds) hb
  · intro hpub
    rw [hpc] at hpub
    rw [h.state_eq (hnot (holds_of_published hpub))]
    exact hold.published hpub
  · intro hwritten
    rw [hpc] at hwritten
    rw [h.tmp_eq (hnot (by rw [hwritten]; rfl))]
    exact hold.written hwritten

theorem At.of_outside (hout : (t.pc a).outside = true) (hopened : t.lock.opened.get? a = none) :
    t.At calls a := by
  have hholds : (t.pc a).holds = false := by
    cases hpc : t.pc a <;> first | rfl | simp [hpc, ServePc.outside] at hout
  refine ⟨fun _ => hopened, ?_, ?_, ?_, ?_⟩
  · intro left h
    simp [h, ServePc.outside] at hout
  · simp [hholds]
  · intro h
    simp [holds_of_published h] at hholds
  · intro h
    simp [h, ServePc.outside] at hout

/-- A call that is neither outside nor behind the test of the path has nothing to show. -/
theorem At.of_pc (hout : (t.pc a).outside = false) (hholds : (t.pc a).holds = false)
    (hlocked : ∀ left, t.pc a = .locked left → t.lock.Locks a) : t.At calls a where
  outside h := by simp [hout] at h
  locked := hlocked
  owns h := by simp [hholds] at h
  published h := by simp [holds_of_published h] at hholds
  written h := by simp [h, ServePc.holds] at hholds

/-- A call that owns the path and has not come to the state file yet. -/
theorem At.of_owns (hholds : (t.pc a).holds = true) (hown : t.lock.Owns a)
    (hpub : (t.pc a).published = true → t.state = some (some (calls a)))
    (hwritten : t.pc a = .written → t.tmp (calls a).pid = some (some (calls a))) :
    t.At calls a where
  outside h := by
    cases hpc : t.pc a <;> simp [hpc, ServePc.holds, ServePc.outside] at hholds h
  locked left h := by simp [h, ServePc.holds] at hholds
  owns _ := hown
  published := hpub
  written := hwritten

theorem Sound.at_self (hs : s.Sound calls) (h : Effect calls s a t) : t.At calls a := by
  have hold := hs.at_all a
  cases h with
  | stay => exact hold
  | @walk pc h =>
      have hpc : (s.goto a pc).pc a = pc := goto_pc_self pc
      refine ⟨?_, ?_, ?_, ?_, ?_⟩ <;> rw [hpc]
      · exact fun hout => hold.outside (h.outside hout)
      · exact fun left hleft => absurd hleft (h.locked left)
      · intro hholds
        obtain hbefore | ⟨⟨left, hleft⟩, hpath⟩ := h.holds hholds
        · exact hold.owns hbefore
        · exact (hold.locked left hleft).owns hpath
      · exact fun hpub => hold.published (h.published hpub)
      · exact fun hwritten => absurd hwritten h.written
  | leave h => exact .of_outside (by simpa using h) LockFile.get?_close_self
  | @create pc inode lock hpc hout h =>
      refine .of_pc ?_ ?_ ?_ <;> simp only [goto_pc_self] <;>
        obtain rfl | ⟨left, rfl⟩ := hpc <;> first | rfl | exact nofun
  | @take pc lock hpc h =>
      refine .of_pc ?_ ?_ (fun _ _ => LockFile.locks_tryLock h) <;> simp only [goto_pc_self] <;>
        obtain rfl | ⟨left, rfl⟩ := hpc <;> rfl
  | unlock => exact .of_pc (by simp [ServePc.outside]) (by simp [ServePc.holds]) (by simp)
  | @write pc content hpc hown =>
      have howns := (hold.owns hown).write (d := a) content
      refine .of_owns ?_ howns ?_ ?_ <;> simp only [goto_pc_self] <;>
        obtain rfl | rfl := hpc <;> first | rfl | exact nofun
  | openTmp hown =>
      exact .of_owns (by simp [ServePc.holds]) (hold.owns hown) (by simp [ServePc.published])
        (by simp)
  | dump hown =>
      exact .of_owns (by simp [ServePc.holds]) (hold.owns hown) (by simp [ServePc.published])
        fun _ => Function.update_self ..
  | @replace content hpc h =>
      have hcontent : content = some (calls a) := by
        rw [hold.written hpc, Option.some_inj] at h
        exact h.symm
      have hown : s.lock.Owns a := hold.owns (by rw [hpc]; rfl)
      exact .of_owns (by simp [ServePc.holds]) hown (fun _ => by rw [hcontent]) (by simp)
  | removeState ok hpc =>
      have hown : s.lock.Owns a := hold.owns (by rw [hpc]; rfl)
      exact .of_owns (by simp [ServePc.holds]) hown (by simp [ServePc.published]) (by simp)
  | removeLock hpc => exact .of_pc (by simp [ServePc.outside]) (by simp [ServePc.holds]) (by simp)

/-- A file is moved to the place of the state file only when it is written whole. -/
theorem Sound.whole_of_effect (hs : s.Sound calls) (h : Effect calls s a t) :
    t.state ≠ some none := by
  cases h with
  | @replace content hpc h =>
      rw [(hs.at_all a).written hpc, Option.some_inj] at h
      subst h
      exact nofun
  | removeState ok =>
      cases ok with
      | true => exact nofun
      | false => exact hs.whole
  | _ => exact hs.whole

theorem Sound.advance (hs : s.Sound calls) (a : Nat) (act : ServeAction) :
    (s.advance calls a act).Sound calls := by
  have h : Effect calls s a (s.advance calls a act) := effect_advance
  refine ⟨(hs.op h).sound hs.lock, hs.whole_of_effect h, fun b => ?_⟩
  by_cases hb : b = a
  · subst hb
    exact hs.at_self h
  · exact hs.at_other h hb

/-- Before the first call. Files of servers that were killed may be there. -/
structure Fresh (s : ServeHost) : Prop where
  pc : ∀ a, s.pc a = .idle
  opened : s.lock.opened = Table.empty
  locker : ∀ i, s.lock.locker i = none
  whole : s.state ≠ some none
  removals : s.removals = []

theorem Fresh.sound (h : s.Fresh) : s.Sound calls where
  lock i d hlock := by
    rw [h.locker] at hlock
    cases hlock
  whole := h.whole
  at_all a := by
    have hnone : s.lock.opened.get? a = none := by
      rw [h.opened]
      rfl
    refine ⟨fun _ => hnone, ?_, ?_, ?_, ?_⟩ <;> rw [h.pc a] <;> exact nofun

theorem Sound.after (hs : s.Sound calls) (is : List (Nat × ServeAction)) :
    (run (step calls) is s).Sound calls :=
  (along_of_forall (fun _ _ _ => trivial) s).invariant (P := fun _ _ => True)
    (fun i _ h _ => h.advance i.1 i.2) hs

/-- The system calls of a start that nothing stops, with the older server that
it finds. -/
def startUp (a inode : Nat) (older : Option Nat) : List (Nat × ServeAction) :=
  [.serve, .create inode, .next, .next, .legacy older, .next, .next, .attempt true, .next, .next,
    .next].map fun act => (a, act)

/-- However many servers of a database are started, looked for and killed, and
however their steps are mixed: at most one of them is between the test of its
lock and the removal of the lock file. It has the lock of the file that is at
the path, the state file is its own and whole from when it is published, and
nothing that another call does next touches one of the two files. -/
theorem one_server (hs : s.Fresh) (is : List (Nat × ServeAction))
    (ha : ((run (step calls) is s).pc a).holds = true) :
    (∀ b, ((run (step calls) is s).pc b).holds = true → b = a) ∧
      (run (step calls) is s).lock.Locks a ∧
      (run (step calls) is s).lock.atPath a = true ∧
      (((run (step calls) is s).pc a).published = true →
        (run (step calls) is s).state = some (some (calls a))) ∧
      ∀ b act, b ≠ a →
        (step calls (b, act) (run (step calls) is s)).lock.entry =
            (run (step calls) is s).lock.entry ∧
          (step calls (b, act) (run (step calls) is s)).state = (run (step calls) is s).state := by
  have hsound : (run (step calls) is s).Sound calls := hs.sound.after is
  have hown := (hsound.at_all a).owns ha
  refine ⟨fun b hb => hsound.holds_unique hb ha, hsound.lock.locks hown,
    hsound.lock.atPath_of_owns hown, (hsound.at_all a).published, fun b act hb => ?_⟩
  have heffect : Effect calls (run (step calls) is s) b (step calls (b, act) _) := effect_advance
  have hnot : ((run (step calls) is s).pc b).holds = false := by
    rw [← Bool.not_eq_true]
    exact fun hb' => hb (hsound.holds_unique hb' ha)
  exact ⟨(hsound.op heffect).entry_eq hown hb.symm, heffect.state_eq hnot⟩

/-- No file and no call. -/
theorem fresh_empty : Fresh {} := ⟨fun _ => rfl, rfl, fun _ => rfl, nofun, rfl⟩

/-- A second start opens the file of the first before it is locked. -/
theorem one_server_of_two :
    let calls : Nat → ServerState := fun a => ⟨"::1", 7000 + a, "token", 41, "memory.db"⟩
    let is := (startUp 0 5 none).take 2 ++ (startUp 1 6 none).take 2 ++
      (startUp 0 5 none).drop 2 ++ [(1, .next)]
    (run (step calls) is {}).lock.atPath 0 = true ∧
      (run (step calls) is {}).state = some (some (calls 0)) := by
  intro calls is
  have h : ((run (step calls) is {}).pc 0).holds = true := by decide +kernel
  have hpub : ((run (step calls) is {}).pc 0).published = true := by decide +kernel
  have hone := one_server fresh_empty is h
  exact ⟨hone.2.2.1, hone.2.2.2.1 hpub⟩

end ServeHost

end MarkSdk
