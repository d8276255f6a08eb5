import MarkSdk.Server.OneServer

/-!
When a start of a server succeeds.

A server that is killed leaves its files behind, but no lock: the next start
takes over the lock file as it is, unless a pid that the files name is alive
again as a MARK process. A start gives up only after its locked
file has been gone from the path three times, and each time another server
was the one to remove it.
-/

namespace MarkSdk

open Lib

/-- Behind the removal of the lock file. -/
def ServePc.finished : ServePc → Bool
  | .removed _ | .done _ => true
  | _ => false

namespace ServeHost

variable {calls : Nat → ServerState} {s t : ServeHost} {a b : Nat}

/-! ### A start on its own -/

/-- Neither the files' processes nor their server are there. -/
theorem Abandoned.legacyServer {os : LegacyHost} {own : Nat} (h : s.Abandoned os own) :
    s.legacyServer os own = none := by
  have hpids : ((s.lockPid.toList ++ (asPid (s.readState.map ServerState.pid)).toList).find?
      fun pid => pid ≠ own && os.alive pid) = none := by
    rw [List.find?_eq_none]
    intro pid hpid hfound
    simp only [ne_eq, decide_not, Bool.and_eq_true, Bool.not_eq_true', decide_eq_false_iff_not]
      at hfound
    rcases List.mem_append.mp hpid with hlock | hstate
    · have hgone := h.lock pid (Option.mem_toList.mp hlock) hfound.1
      rw [hgone] at hfound
      cases hfound.2
    · obtain ⟨hmap, -⟩ := Option.filter_eq_some_iff.mp (Option.mem_toList.mp hstate)
      obtain ⟨data, hdata, rfl⟩ := Option.map_eq_some_iff.mp hmap
      have hgone := h.state data hdata hfound.1
      rw [hgone] at hfound
      cases hfound.2
  unfold ServeHost.legacyServer
  simp only [hpids]
  cases hdata : s.readState with
  | none => rfl
  | some data =>
      simp only [Option.map_some]
      by_cases hown : asPid (some data.pid) = some own
      · simp [hown]
      · simp [h.hello data hdata hown]

/-- A lock file that is there keeps its pid, and a new one has none. -/
theorem lockPid_create {lock₁ lock₂ : LockFile Nat Nat} {inode : Nat}
    (h₁ : s.lock.create a inode = some lock₁) (h₂ : lock₁.tryLock a = some lock₂) :
    lock₂.entry.bind lock₂.content = s.lock.entry.bind s.lock.content := by
  have hlocked : lock₂.entry = lock₁.entry ∧ lock₂.content = lock₁.content := by
    unfold LockFile.tryLock at h₂
    split at h₂
    · cases h₂
    · split at h₂
      · cases h₂
        exact ⟨rfl, rfl⟩
      · split at h₂
        · cases h₂
          exact ⟨rfl, rfl⟩
        · cases h₂
  rw [hlocked.1, hlocked.2]
  unfold LockFile.create at h₁
  split at h₁
  · cases h₁
    rfl
  · rename_i hnone
    split at h₁
    · cases h₁
      simp [hnone]
    · cases h₁

/-- A start asks for an older server once. -/
theorem legacyRight_startUp {os : LegacyHost} {inode : Nat} {older : Option Nat}
    (h : older = (run (step calls) ((startUp a inode older).take 4) s).legacyServer os
      (calls a).pid) :
    Along (step calls) (LegacyRight calls os) (startUp a inode older) s := by
  have hother : ∀ (is : List (Nat × ServeAction)) (t : ServeHost),
      (∀ i ∈ is, ∀ pid, i.2 ≠ .legacy pid) → Along (step calls) (LegacyRight calls os) is t :=
    fun is t hall => along_of_forall (fun i hi _ pid hpid => absurd hpid (hall i hi pid)) t
  rw [← List.take_append_drop 4 (startUp a inode older), along_append]
  refine ⟨hother _ _ (by simp [startUp]), fun pid hpid => ?_, hother _ _ (by simp)⟩
  cases hpid
  exact h

/-- Where nobody has the lock of the file at the path, and the servers that the
files name are gone, a start that nothing stops serves. -/
theorem Sound.serves_of_free (hs : s.Sound calls) (ha : s.pc a = .idle)
    (hfree : ∀ i, s.lock.entry = some i → s.lock.locker i = none) {os : LegacyHost}
    (hgone : s.Abandoned os (calls a).pid) {inode : Nat}
    (hinode : s.lock.entry ≠ none ∨ s.lock.Unused inode) {older : Option Nat}
    (hright : Along (step calls) (LegacyRight calls os) (startUp a inode older) s) :
    (run (step calls) (startUp a inode older) s).pc a = .serving ∧
      (run (step calls) (startUp a inode older) s).state = some (some (calls a)) := by
  obtain ⟨lock₁, h₁⟩ := LockFile.create_eq_some (d := a) hinode
  obtain ⟨lock₂, h₂⟩ := LockFile.exists_tryLock hs.lock hfree h₁
  have hpath : lock₂.atPath a = true := by
    rw [LockFile.atPath_tryLock h₂, LockFile.atPath_create h₁]
  -- up to the question for an older server no file is written
  have hfour : (run (step calls) ((startUp a inode older).take 4) s).state = s.state ∧
      (run (step calls) ((startUp a inode older).take 4) s).lock = lock₂ := by
    simp [startUp, step, ServeHost.advance, goto, ha, h₁, h₂]
  have hnone : older = none := by
    rw [← List.take_append_drop 4 (startUp a inode older), along_append] at hright
    have hanswer : older = ServeHost.legacyServer _ os (calls a).pid := hright.2.1 older rfl
    rw [hanswer]
    refine Abandoned.legacyServer ?_
    have hlockPid : (run (step calls) ((startUp a inode older).take 4) s).lockPid = s.lockPid := by
      unfold ServeHost.lockPid
      rw [hfour.2, lockPid_create h₁ h₂]
    have hstate : (run (step calls) ((startUp a inode older).take 4) s).readState =
        s.readState := by
      unfold ServeHost.readState
      rw [hfour.1]
    exact ⟨hlockPid ▸ hgone.lock, hstate ▸ hgone.state, hstate ▸ hgone.hello⟩
  subst hnone
  simp [startUp, step, ServeHost.advance, goto, ha, h₁, h₂, hpath]

theorem advance_done {act : ServeAction} {outcome : ServeEnd} (hpc : s.pc a = .done outcome) :
    s.advance calls a act = s := by
  unfold ServeHost.advance
  simp only [hpc]

theorem advance_kill (hpc : ∀ outcome, s.pc a ≠ .done outcome) :
    s.advance calls a .kill = s.closing a (.done .killed) := by
  unfold ServeHost.advance
  cases h : s.pc a with
  | done outcome => exact absurd h (hpc outcome)
  | trying left => cases left <;> rfl
  | _ => rfl

/-- A kill leaves no lock at the path, unless another call has it. -/
theorem Sound.free_after_kill (hs : s.Sound calls) (hb : ∀ c, s.lock.Owns c → c = b) {i : Nat}
    (hi : (s.advance calls b .kill).lock.entry = some i) :
    (s.advance calls b .kill).lock.locker i = none := by
  cases hpc : s.pc b with
  | done outcome =>
      rw [advance_done hpc] at hi ⊢
      rw [Option.eq_none_iff_forall_ne_some]
      intro c hc
      have hown : s.lock.Owns c := ⟨i, hi, hc⟩
      rw [hb c hown] at hc
      have hopen := (hs.at_all b).outside (by rw [hpc]; rfl)
      rw [hs.lock i b hc] at hopen
      cases hopen
  | _ =>
      rw [advance_kill (by simp [hpc])] at hi ⊢
      exact LockFile.locker_close hb hi

theorem entry_kill : (s.advance calls b .kill).lock.entry = s.lock.entry := by
  cases hpc : s.pc b with
  | done outcome => rw [advance_done hpc]
  | _ =>
      rw [advance_kill (by simp [hpc])]
      simp [closing, LockFile.close]

theorem unused_kill {i : Nat} (h : s.lock.Unused i) :
    (s.advance calls b .kill).lock.Unused i := by
  cases hpc : s.pc b with
  | done outcome => rwa [advance_done hpc]
  | _ =>
      rw [advance_kill (by simp [hpc])]
      exact h.close

/-- A kill never keeps a database from being served. Whatever state the calls
have come to, once the one that has the lock of the file at the path is killed
(if there is one), a start that nothing stops serves and publishes its own
state, with whatever lock file and state file the killed one has left, unless a
pid in them is again one of a MARK process. -/
theorem serves_after_kill (hs : s.Fresh) (is : List (Nat × ServeAction)) {inode : Nat}
    (hb : ∀ c, (run (step calls) is s).lock.Owns c → c = b)
    (ha : (run (step calls) is s).pc a = .idle) (hab : a ≠ b)
    (hinode : (run (step calls) is s).lock.entry ≠ none ∨
      (run (step calls) is s).lock.Unused inode) {os : LegacyHost}
    (hgone : (run (step calls) (is ++ [(b, .kill)]) s).Abandoned os (calls a).pid)
    {older : Option Nat}
    (hright : Along (step calls) (LegacyRight calls os) (startUp a inode older)
      (run (step calls) (is ++ [(b, .kill)]) s)) :
    (run (step calls) (is ++ (b, .kill) :: startUp a inode older) s).pc a = .serving ∧
      (run (step calls) (is ++ (b, .kill) :: startUp a inode older) s).state =
        some (some (calls a)) := by
  rw [run_append, run_cons] at hgone hright ⊢
  have hsound : (run (step calls) is s).Sound calls := hs.sound.after is
  have heffect : Effect calls (run (step calls) is s) b (step calls (b, .kill) _) := effect_advance
  have hidle : (step calls (b, .kill) (run (step calls) is s)).pc a = .idle := by
    rw [heffect.pc_other hab, ha]
  refine (hsound.advance b .kill).serves_of_free hidle (fun i hi => hsound.free_after_kill hb hi)
    hgone ?_ hright
  exact hinode.imp (fun h => entry_kill.symm ▸ h) unused_kill

/-- The first server is killed while it serves, the second one starts, in
another process and with no process left under the pid of the first. -/
theorem serves_after_kill_of_first :
    let calls : Nat → ServerState := fun a => ⟨"::1", 7000 + a, "token", 41 + a, "memory.db"⟩
    (run (step calls) (startUp 0 5 none ++ (0, .kill) :: startUp 1 6 none) {}).pc 1 = .serving ∧
      (run (step calls) (startUp 0 5 none ++ (0, .kill) :: startUp 1 6 none) {}).state =
        some (some (calls 1)) := by
  intro calls
  let os : LegacyHost := ⟨fun pid => pid ≠ 41, fun _ => false⟩
  have hentry : (run (step calls) (startUp 0 5 none) {}).lock.entry = some 5 := by decide +kernel
  have hlock : (run (step calls) (startUp 0 5 none) {}).lock.locker 5 = some 0 := by decide +kernel
  have hpid : (run (step calls) (startUp 0 5 none ++ [(0, .kill)]) {}).lockPid = some 41 := by
    decide +kernel
  have hstate : (run (step calls) (startUp 0 5 none ++ [(0, .kill)]) {}).readState =
      some (calls 0) := by decide +kernel
  have hgone : (run (step calls) (startUp 0 5 none ++ [(0, .kill)]) {}).Abandoned os
      (calls 1).pid := by
    refine ⟨fun pid h _ => ?_, fun data h _ => ?_, fun _ _ _ => rfl⟩
    · rw [hpid, Option.some_inj] at h
      subst h
      rfl
    · rw [hstate, Option.some_inj] at h
      subst h
      rfl
  have hright : Along (step calls) (LegacyRight calls os) (startUp 1 6 none)
      (run (step calls) (startUp 0 5 none ++ [(0, .kill)]) {}) :=
    legacyRight_startUp (by decide +kernel)
  exact serves_after_kill fresh_empty (startUp 0 5 none)
    (fun c hc => hc.unique ⟨5, hentry, hlock⟩) (by decide +kernel) (by decide)
    (.inl (by rw [hentry]; exact nofun)) hgone hright

/-! ### Giving up -/

/-- Every call that has removed the lock file is about to end, or has ended. -/
structure Counted (s : ServeHost) : Prop where
  nodup : s.removals.Nodup
  finished : ∀ b ∈ s.removals, (s.pc b).finished = true

/-- The `n` removals since the start are enough for this place: one for each
round before this one, and one more if the file is no longer at the path. -/
def Paid (n : Nat) (atPath : Bool) (other : Prop) : ServePc → Prop
  | .trying left | .stale left => 3 ≤ n + left
  | .opened left | .locked left => 2 ≤ n + left ∧ (atPath = false → 3 ≤ n + left)
  | .releasing outcome | .removed outcome => outcome ≠ .notAcquired
  | .done outcome => outcome = .notAcquired → 3 ≤ n ∧ other
  | _ => True

theorem Paid.mono {n : Nat} {p q : Bool} {o o' : Prop} {pc : ServePc} (h : Paid n p o pc)
    (hpath : p = true → q = true) (ho : o → o') : Paid n q o' pc := by
  cases pc with
  | opened left | locked left =>
      refine ⟨h.1, fun hgone => h.2 ?_⟩
      rw [← Bool.not_eq_true] at hgone ⊢
      exact fun hp => hgone (hpath hp)
  | done outcome => exact fun hout => ⟨(h hout).1, ho (h hout).2⟩
  | _ => exact h

theorem Paid.succ {n : Nat} {p q : Bool} {o o' : Prop} {pc : ServePc} (h : Paid n p o pc)
    (ho : o → o') : Paid (n + 1) q o' pc := by
  cases pc with
  | opened left | locked left =>
      obtain ⟨hn, -⟩ := h
      exact ⟨by omega, fun _ => by omega⟩
  | trying left | stale left =>
      have hn : 3 ≤ n + left := h
      show 3 ≤ n + 1 + left
      omega
  | done outcome => exact fun hout => ⟨Nat.le_succ_of_le (h hout).1, ho (h hout).2⟩
  | _ => exact h

/-- What a step changes of the path for another call. -/
theorem Effect.removals (h : Effect calls s b t) (hab : a ≠ b) :
    (t.removals = s.removals ∧ (s.lock.atPath a = true → t.lock.atPath a = true)) ∨
      t.removals = b :: s.removals := by
  cases h with
  | create _ _ h => exact .inl ⟨rfl, LockFile.atPath_create_other h hab⟩
  | take _ h => exact .inl ⟨rfl, fun hpath => by rwa [LockFile.atPath_tryLock h]⟩
  | leave => exact .inl ⟨rfl, fun hpath => by rwa [closing, LockFile.atPath_close hab]⟩
  | write content => exact .inl ⟨rfl, fun hpath => by rwa [LockFile.atPath_write]⟩
  | removeLock => exact .inr rfl
  | stay | walk | unlock | openTmp | dump | replace | removeState => exact .inl ⟨rfl, id⟩

/-- The lock file was removed often enough since it was `old` that were removed. -/
def Since (old : List Nat) (s : ServeHost) (a : Nat) : Prop :=
  ∃ bs, s.removals = bs ++ old ∧ Paid bs.length (s.lock.atPath a) (a ∉ bs) (s.pc a)

theorem Since.other {old : List Nat} (hsince : Since old s a) (h : Effect calls s b t)
    (hab : a ≠ b) : Since old t a := by
  obtain ⟨bs, hbs, hpaid⟩ := hsince
  rw [← h.pc_other hab] at hpaid
  obtain ⟨hsame, hpath⟩ | hmore := h.removals hab
  · exact ⟨bs, hsame.trans hbs, hpaid.mono hpath id⟩
  · refine ⟨b :: bs, by rw [hmore, hbs, List.cons_append], hpaid.succ fun hnot => ?_⟩
    rw [List.mem_cons, not_or]
    exact ⟨hab, hnot⟩

theorem Since.self {old : List Nat} {act : ServeAction} (hsince : Since old s a)
    (hnew : s.pc a = .trying 0 → a ∉ s.removals) : Since old (s.advance calls a act) a := by
  unfold advance
  split
  all_goals rename_i hpc
  case h_1 | h_32 => exact hsince
  all_goals obtain ⟨bs, hbs, hpaid⟩ := hsince
  case h_2 => exact ⟨bs, hbs, by simp [closing, Paid]⟩
  all_goals rw [hpc] at hpaid
  -- the removal is one more, and the call is then past its start
  case h_22 => exact ⟨a :: bs, by simp [hbs], by simpa [goto, Paid] using hpaid⟩
  -- the head of the loop, without and with a round left
  case h_4 =>
    have hmem : a ∉ bs := fun ha => hnew hpc (hbs ▸ List.mem_append_left old ha)
    exact ⟨bs, hbs, by simpa [goto, Paid] using And.intro hpaid hmem⟩
  case h_5 left inode =>
    have hn : 3 ≤ bs.length + (left + 1) := hpaid
    split
    · exact ⟨bs, hbs, by rwa [hpc]⟩
    · rename_i lock hcreate
      refine ⟨bs, hbs, ?_⟩
      simp only [goto, Paid, Function.update_self, LockFile.atPath_create hcreate]
      exact ⟨by omega, by simp⟩
  -- the lock, and the test of the path
  case h_6 left =>
    split
    · exact ⟨bs, hbs, by simp [goto, Paid]⟩
    · rename_i lock hlock
      refine ⟨bs, hbs, ?_⟩
      simpa only [goto, Paid, Function.update_self, LockFile.atPath_tryLock hlock] using hpaid
  case h_8 left =>
    split
    · exact ⟨bs, hbs, by simp [goto, Paid]⟩
    · rename_i hpath
      exact ⟨bs, hbs, by simpa [goto, Paid] using hpaid.2 (by simpa using hpath)⟩
  case h_9 | h_23 => exact ⟨bs, hbs, by simpa [goto, closing, Paid] using hpaid⟩
  case h_24 => exact ⟨bs, hbs, by simpa [closing, Paid] using fun hout => absurd hout hpaid⟩
  all_goals try split
  all_goals exact ⟨bs, hbs, by simp [goto, closing, Paid]⟩

/-! ### Who removes the lock file -/

theorem finished_advance {act : ServeAction} (h : (s.pc a).finished = true) :
    ((s.advance calls a act).pc a).finished = true := by
  cases hpc : s.pc a with
  | removed outcome =>
      unfold ServeHost.advance
      simp only [hpc]
      cases act <;> simp [hpc, ServePc.finished]
  | done outcome => simp [advance_done hpc, hpc, ServePc.finished]
  | _ => simp [hpc, ServePc.finished] at h

theorem Counted.advance (hs : s.Counted) (a : Nat) (act : ServeAction) :
    (s.advance calls a act).Counted := by
  have h : Effect calls s a (s.advance calls a act) := effect_advance
  have hfinished : ∀ b ∈ s.removals, ((s.advance calls a act).pc b).finished = true := by
    intro b hb
    by_cases hab : b = a
    · subst hab
      exact finished_advance (hs.finished b hb)
    · rw [h.pc_other hab]
      exact hs.finished b hb
  generalize s.advance calls a act = t at h hfinished
  cases h with
  | @removeLock outcome hpc =>
      have hnot : a ∉ s.removals := fun ha => by simpa [hpc, ServePc.finished] using hs.finished a ha
      refine ⟨List.nodup_cons.mpr ⟨hnot, hs.nodup⟩, fun b hb => ?_⟩
      obtain rfl | hb := List.mem_cons.mp hb
      · simp [goto, ServePc.finished]
      · exact hfinished b hb
  | _ => exact ⟨hs.nodup, hfinished⟩

theorem Counted.after (hs : s.Counted) (is : List (Nat × ServeAction)) :
    (run (step calls) is s).Counted :=
  (along_of_forall (fun _ _ _ => trivial) s).invariant (P := fun _ _ => True)
    (fun i _ h _ => h.advance i.1 i.2) hs

theorem Fresh.counted (h : s.Fresh) : s.Counted := by
  have hnone := h.removals
  exact ⟨by rw [hnone]; exact List.nodup_nil, by rw [hnone]; exact nofun⟩

theorem Since.keep {old : List Nat} (hs : s.Counted) (hsince : Since old s a)
    (i : Nat × ServeAction) : Since old (step calls i s) a := by
  obtain ⟨b, act⟩ := i
  by_cases hab : a = b
  · subst hab
    refine hsince.self fun hpc ha => ?_
    simpa [hpc, ServePc.finished] using hs.finished a ha
  · exact hsince.other effect_advance hab

theorem Since.after {old : List Nat} (hs : s.Counted) (hsince : Since old s a)
    (is : List (Nat × ServeAction)) : Since old (run (step calls) is s) a := by
  induction is generalizing s with
  | nil => exact hsince
  | cons i is ih => exact ih (hs.advance i.1 i.2) (hsince.keep hs i)

/-- A start that could not acquire the lock was overtaken three times: three
other servers, each of them once, have removed the lock file in the meantime. -/
theorem not_acquired_after_three (hs : s.Fresh) (is js : List (Nat × ServeAction))
    (ha : (run (step calls) is s).pc a = .idle)
    (hend : (run (step calls) (is ++ js) s).pc a = .done .notAcquired) :
    ∃ bs, (run (step calls) (is ++ js) s).removals = bs ++ (run (step calls) is s).removals ∧
      3 ≤ bs.length ∧ bs.Nodup ∧ a ∉ bs := by
  have hcounted : (run (step calls) is s).Counted := hs.counted.after is
  have hstart : Since (run (step calls) is s).removals (run (step calls) is s) a :=
    ⟨[], rfl, by rw [ha]; trivial⟩
  have hfinal : (run (step calls) js (run (step calls) is s)).removals.Nodup :=
    (hcounted.after js).nodup
  obtain ⟨bs, hbs, hpaid⟩ := hstart.after hcounted js
  rw [← run_append] at hbs hpaid hfinal
  rw [hend] at hpaid
  obtain ⟨hthree, hnot⟩ := hpaid rfl
  rw [hbs] at hfinal
  exact ⟨bs, hbs, hthree, (List.nodup_append.mp hfinal).1, hnot⟩

/-- Three servers whose engines do not open, each of them between the open and
the lock of call 0. -/
theorem not_acquired_after_three_short :
    let calls : Nat → ServerState := fun a => ⟨"::1", 7000 + a, "token", 41 + a, "memory.db"⟩
    let failed := fun b : Nat =>
      ([.serve, .create 9, .next, .next, .legacy none, .next, .next, .attempt false,
        .attempt true, .next] : List ServeAction).map fun act => (b, act)
    let round := fun b : Nat =>
      [(0, .create 5)] ++ failed b ++ [(0, .next), (0, .next), (0, .next)]
    let js := [(0, .serve)] ++ round 1 ++ round 2 ++ round 3 ++ [(0, .next)]
    ∃ bs, (run (step calls) ([] ++ js) {}).removals = bs ++ [] ∧
      3 ≤ bs.length ∧ bs.Nodup ∧ 0 ∉ bs := by
  intro calls failed round js
  exact not_acquired_after_three fresh_empty [] js rfl (by decide +kernel)

end ServeHost

end MarkSdk
