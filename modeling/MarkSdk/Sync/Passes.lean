import MarkSdk.Lib.Runs
import MarkSdk.Memory.Maintenance
import MarkSdk.Sync.Delta

/-!
Passes of `SyncMiddleware` among the writes of other threads.

A pass takes the high-water mark, lists the fragments with two `SELECT`s,
packs the delta, uploads it and advances the mark. Writes commit in between,
with stamps that they have taken before. As long as no write commits a
version that the mark covers already, or will cover once a pass under way
advances it, every version that a successful pass has listed is delivered by
it or has been before (`sync_loses_nothing`).
-/

namespace MarkSdk

open Lib

/-- A pass of `SyncMiddleware.after`. The set `exclude_ids` is the one of the
middleware, which others may add to; it is known by its number. -/
inductive SyncPass : Type
  /-- the arguments of `prepare_delta` are taken -/
  | begun (since : Option Int) (set : Nat)
  /-- the fragments of the agent `__mark__` are listed -/
  | listing (since : Option Int) (set : Nat) (first : List Fragment)
  /-- all fragments are listed, and the delta is packed -/
  | packed (listed : List Fragment) (delta : SyncDelta)

/-- The store, the middleware with its passes, and what successful passes
have delivered. -/
structure SyncState where
  store : LocalStore
  mark : Option Int
  /-- the id sets that the middleware has used, and the number of the last one -/
  sets : Nat → List String
  set : Nat
  passes : Nat → Option SyncPass
  delivered : List SyncFragment

def SyncState.start : SyncState := ⟨.empty, none, fun _ => [], 0, fun _ => none, []⟩

/-- `high_water_mark` and `_ids_at_high_water` -/
def SyncState.highWater (s : SyncState) : Watermark String := ⟨s.mark, s.sets s.set⟩

/-- What happens next: a write transaction commits or rolls back, or a pass
takes its next step. -/
inductive SyncStep : Type
  | commit (t : Writing Unit)
  | begin (pass : Nat)
  | listFirst (pass : Nat)
  | listAll (pass : Nat)
  /-- `ok`: without errors, and uploaded -/
  | finish (pass : Nat) (ok : Bool)

def SyncState.advance (s : SyncState) (delta : SyncDelta) : SyncState :=
  match delta.highWater.mark with
  | none => s
  | some mark =>
      if s.mark = some mark then
        { s with sets := Function.update s.sets s.set (s.sets s.set ++ delta.highWater.ids) }
      else if s.mark.all fun old => old < mark then
        { s with
          mark := some mark
          sets := Function.update s.sets (s.set + 1) delta.highWater.ids
          set := s.set + 1 }
      else s

def SyncState.setPass (s : SyncState) (i : Nat) (pass : Option SyncPass) : SyncState :=
  { s with passes := Function.update s.passes i pass }

/-- `list_by_agent("__mark__")` -/
def LocalStore.listMark (s : LocalStore) : List Fragment := (s.listByAgent "__mark__" none).take 200

def SyncStep.step (o : SyncOptions) (r : Redaction) : SyncStep → SyncState → SyncState
  | .commit t, s => { s with store := { s.store with db := t.apply s.store.db } }
  | .begin i, s => s.setPass i (some (.begun s.mark s.set))
  | .listFirst i, s =>
      match s.passes i with
      | some (.begun since set) => s.setPass i (some (.listing since set s.store.listMark))
      | _ => s
  | .listAll i, s =>
      match s.passes i with
      | some (.listing since set first) =>
          s.setPass i (some (.packed s.store.db.fragments.rows
            (o.prepareDelta r ⟨since, s.sets set⟩ (first ++ s.store.db.fragments.rows))))
      | _ => s
  | .finish i ok, s =>
      match s.passes i with
      | some (.packed _ delta) =>
          if ok then
            { (s.advance delta).setPass i none with delivered := s.delivered ++ delta.fragments }
          else s.setPass i none
      | _ => s.setPass i none

/-- A version that is committed is not covered by the mark, nor by that of a
delta under way; its content is not blank; and it is none of a memory of
`__mark__` that a pass has listed just before. -/
structure Noticed (o : SyncOptions) (r : Redaction) (s : SyncState) (f : Fragment) : Prop where
  fresh : s.highWater.covers f.updatedAt f.id = false
  packed : ∀ i listed delta, s.passes i = some (.packed listed delta) →
    delta.highWater.covers f.updatedAt f.id = false
  listing : ∀ i since set first, s.passes i = some (.listing since set first) →
    ∀ g ∈ first, g.id ≠ f.id
  content : strip (o.content r f) ≠ ""

/-- Every version that a write commits is noticed by the next pass. -/
def SyncStep.Noticed (o : SyncOptions) (r : Redaction) : SyncStep → SyncState → Prop
  | .commit t, s => ∀ f ∈ (t.apply s.store.db).fragments.rows, f ∉ s.store.db.fragments.rows →
      MarkSdk.Noticed o r s f
  | _, _ => True

/-! ### What is kept -/

/-- The mark was at `since` when `set` was the id set. -/
def SyncState.WasAt (s : SyncState) (since : Option Int) (set : Nat) : Prop :=
  set ≤ s.set ∧ ∀ mark, since = some mark →
    ∃ mark', s.mark = some mark' ∧ (mark < mark' ∨ (mark = mark' ∧ set = s.set))

/-- What holds of a pass under way: each version that its mark will cover is
in its delta or delivered already, and so is each version that it has listed. -/
def SyncState.PassOk (o : SyncOptions) (r : Redaction) (s : SyncState) : SyncPass → Prop
  | .begun since set => s.WasAt since set
  | .listing since set first =>
      s.WasAt since set ∧ ∀ f ∈ s.store.db.fragments.rows, ∀ g ∈ first, g.id = f.id → g = f
  | .packed listed delta =>
      (∀ f ∈ s.store.db.fragments.rows, o.wants f = true →
        delta.highWater.covers f.updatedAt f.id = true →
          o.pack r f ∈ s.delivered ++ delta.fragments) ∧
      ∀ f ∈ listed, o.wants f = true → o.pack r f ∈ s.delivered ++ delta.fragments

/-- The stored versions that the mark covers are delivered. -/
structure Following (o : SyncOptions) (r : Redaction) (s : SyncState) : Prop where
  covered : ∀ f ∈ s.store.db.fragments.rows, o.wants f = true →
    s.highWater.covers f.updatedAt f.id = true → o.pack r f ∈ s.delivered
  content : ∀ f ∈ s.store.db.fragments.rows, strip (o.content r f) ≠ ""
  passes : ∀ i pass, s.passes i = some pass → s.PassOk o r pass

section Steps

variable {o : SyncOptions} {r : Redaction} {s s' : SyncState}

theorem following_start : Following o r .start where
  covered := fun _ hf => absurd hf List.not_mem_nil
  content := fun _ hf => absurd hf List.not_mem_nil
  passes := fun _ _ hpass => by cases hpass

/-- What the mark covered once, it covers still. -/
theorem SyncState.WasAt.covers {since : Option Int} {set : Nat} (h : s.WasAt since set)
    {stamp : Int} {key : String}
    (hcovers : (⟨since, s.sets set⟩ : Watermark String).covers stamp key = true) :
    s.highWater.covers stamp key = true := by
  obtain ⟨mark, hmark, hcovered⟩ := Watermark.covers_iff.mp hcovers
  obtain ⟨mark', hmark', horder⟩ := h.2 mark hmark
  refine Watermark.covers_iff.mpr ⟨mark', hmark', ?_⟩
  rcases horder with hlt | ⟨rfl, rfl⟩
  · left
    rcases hcovered with hstamp | ⟨hstamp, -⟩ <;> omega
  · exact hcovered

theorem following_commit {t : Writing Unit} (h : Following o r s)
    (hnoticed : (SyncStep.commit t).Noticed o r s) :
    Following o r ((SyncStep.commit t).step o r s) := by
  have hrows : ∀ f ∈ (t.apply s.store.db).fragments.rows,
      f ∈ s.store.db.fragments.rows ∨ MarkSdk.Noticed o r s f := by
    intro f hf
    by_cases hold : f ∈ s.store.db.fragments.rows
    · exact .inl hold
    · exact .inr (hnoticed f hf hold)
  constructor
  · intro f hf hwants hcovers
    rcases hrows f hf with hold | hnew
    · exact h.covered f hold hwants hcovers
    · have hfresh := hnew.fresh
      change s.highWater.covers f.updatedAt f.id = true at hcovers
      rw [hcovers] at hfresh
      cases hfresh
  · intro f hf
    rcases hrows f hf with hold | hnew
    · exact h.content f hold
    · exact hnew.content
  · intro i pass hpass
    change s.passes i = some pass at hpass
    have hok := h.passes i pass hpass
    cases pass with
    | begun since set => exact hok
    | listing since set first =>
        refine ⟨hok.1, fun f hf g hg hid => ?_⟩
        rcases hrows f hf with hold | hnew
        · exact hok.2 f hold g hg hid
        · exact absurd hid (hnew.listing i since set first hpass g hg)
    | packed listed delta =>
        refine ⟨fun f hf hwants hcovers => ?_, hok.2⟩
        rcases hrows f hf with hold | hnew
        · exact hok.1 f hold hwants hcovers
        · have hfresh := hnew.packed i listed delta hpass
          rw [hcovers] at hfresh
          cases hfresh

/-- One pass takes a step, and nothing else changes. -/
theorem Following.setPass (h : Following o r s) (i : Nat) {pass : Option SyncPass}
    (hok : ∀ p, pass = some p → s.PassOk o r p) : Following o r (s.setPass i pass) := by
  refine ⟨h.covered, h.content, fun j p hp => ?_⟩
  have hsame : (s.setPass i pass).PassOk o r p ↔ s.PassOk o r p := by cases p <;> rfl
  rw [hsame]
  change Function.update s.passes i pass j = some p at hp
  by_cases hj : j = i
  · subst hj
    rw [Function.update_self] at hp
    exact hok p hp
  · rw [Function.update_of_ne hj] at hp
    exact h.passes j p hp

theorem following_begin (h : Following o r s) (i : Nat) :
    Following o r ((SyncStep.begin i).step o r s) := by
  refine h.setPass i fun p hp => ?_
  obtain rfl := Option.some.inj hp
  exact ⟨le_refl _, fun mark hmark => ⟨mark, hmark, .inr ⟨rfl, rfl⟩⟩⟩

theorem following_listFirst (h : Following o r s) (i : Nat) :
    Following o r ((SyncStep.listFirst i).step o r s) := by
  unfold SyncStep.step
  dsimp only
  split
  · rename_i since set hpass
    refine h.setPass i fun p hp => ?_
    obtain rfl := Option.some.inj hp
    refine ⟨h.passes i _ hpass, fun f hf g hg hid => ?_⟩
    have hlisted : g ∈ s.store.listByAgent "__mark__" none := List.mem_of_mem_take hg
    have hmem : g ∈ s.store.db.fragments.rows :=
      (List.mem_filter.mp ((List.perm_insertionSort _ _).mem_iff.mp hlisted)).1
    exact s.store.db.fragments.eq_of_key hmem hf hid
  · exact h

theorem following_listAll (h : Following o r s) (i : Nat) :
    Following o r ((SyncStep.listAll i).step o r s) := by
  unfold SyncStep.step
  dsimp only
  split
  · rename_i since set first hpass
    obtain ⟨hwas, hfirst⟩ := h.passes i _ hpass
    have hpacked : ∀ f ∈ s.store.db.fragments.rows, o.wants f = true →
        o.pack r f ∈ s.delivered ++ (o.prepareDelta r ⟨since, s.sets set⟩
          (first ++ s.store.db.fragments.rows)).fragments := by
      intro f hf hwants
      cases hcovers : (⟨since, s.sets set⟩ : Watermark String).covers f.updatedAt f.id with
      | true => exact List.mem_append_left _ (h.covered f hf hwants (hwas.covers hcovers))
      | false =>
          refine List.mem_append_right _ (pack_mem_prepareDelta (List.mem_append_right _ hf) ?_
            hcovers hwants (h.content f hf))
          intro g hg hid
          rcases List.mem_append.mp hg with hg | hg
          · exact hfirst f hf g hg hid
          · exact s.store.db.fragments.eq_of_key hg hf hid
    refine h.setPass i fun p hp => ?_
    obtain rfl := Option.some.inj hp
    exact ⟨fun f hf hwants _ => hpacked f hf hwants, hpacked⟩
  · exact h

theorem highWater_advance (s : SyncState) (delta : SyncDelta) :
    (s.advance delta).highWater = s.highWater.advance delta.highWater := by
  obtain ⟨fragments, synced, skipped, ⟨mark, ids⟩⟩ := delta
  unfold SyncState.advance Watermark.advance SyncState.highWater
  cases mark with
  | none => rfl
  | some mark =>
      cases hold : s.mark with
      | none =>
          dsimp only
          rw [if_neg (by simp)]
          simp
      | some old =>
          dsimp only
          by_cases hsame : old = mark
          · subst hsame
            simp
          · rw [if_neg (by simpa using hsame), if_neg (Ne.symm hsame)]
            by_cases hlt : old < mark
            · simp [hlt]
            · simp [hlt, hold]

theorem SyncState.WasAt.advance {since : Option Int} {set : Nat} (h : s.WasAt since set)
    (delta : SyncDelta) : (s.advance delta).WasAt since set := by
  unfold SyncState.advance
  split
  · exact h
  · rename_i new _
    split
    · exact h
    · split
      · rename_i _ hnewer
        refine ⟨Nat.le_succ_of_le h.1, fun mark hmark => ⟨new, rfl, .inl ?_⟩⟩
        obtain ⟨old, hold, horder⟩ := h.2 mark hmark
        have hlt : old < new := by simpa [hold] using hnewer
        rcases horder with horder | ⟨horder, -⟩ <;> omega
      · exact h

theorem store_advance (s : SyncState) (delta : SyncDelta) : (s.advance delta).store = s.store := by
  unfold SyncState.advance
  split
  · rfl
  · split
    · rfl
    · split <;> rfl

theorem passes_advance (s : SyncState) (delta : SyncDelta) :
    (s.advance delta).passes = s.passes := by
  unfold SyncState.advance
  split
  · rfl
  · split
    · rfl
    · split <;> rfl

theorem Following.deliver (h : Following o r s) {i : Nat} {listed : List Fragment}
    {delta : SyncDelta} (hpass : s.passes i = some (.packed listed delta)) :
    Following o r { s.advance delta with delivered := s.delivered ++ delta.fragments } := by
  obtain ⟨hcovered, -⟩ := h.passes i _ hpass
  constructor
  · intro f hf hwants hcovers
    change f ∈ (s.advance delta).store.db.fragments.rows at hf
    change (s.advance delta).highWater.covers f.updatedAt f.id = true at hcovers
    rw [store_advance] at hf
    rw [highWater_advance, Watermark.covers_advance_iff] at hcovers
    rcases hcovers with hbefore | hnew
    · exact List.mem_append_left _ (h.covered f hf hwants hbefore)
    · exact hcovered f hf hwants hnew
  · intro f hf
    change f ∈ (s.advance delta).store.db.fragments.rows at hf
    rw [store_advance] at hf
    exact h.content f hf
  · intro j pass hp
    change (s.advance delta).passes j = some pass at hp
    rw [passes_advance] at hp
    have hok := h.passes j pass hp
    cases pass with
    | begun since set => exact hok.advance delta
    | listing since set first =>
        refine ⟨hok.1.advance delta, fun f hf => hok.2 f ?_⟩
        change f ∈ (s.advance delta).store.db.fragments.rows at hf
        rwa [store_advance] at hf
    | packed listed' delta' =>
        have hmore : ∀ e, e ∈ s.delivered ++ delta'.fragments →
            e ∈ (s.delivered ++ delta.fragments) ++ delta'.fragments := by
          intro e he
          rw [List.append_assoc]
          rcases List.mem_append.mp he with he | he
          · exact List.mem_append_left _ he
          · exact List.mem_append_right _ (List.mem_append_right _ he)
        refine ⟨fun f hf hwants hcovers => hmore _ (hok.1 f ?_ hwants hcovers),
          fun f hf hwants => hmore _ (hok.2 f hf hwants)⟩
        change f ∈ (s.advance delta).store.db.fragments.rows at hf
        rwa [store_advance] at hf

theorem following_finish (h : Following o r s) (i : Nat) (ok : Bool) :
    Following o r ((SyncStep.finish i ok).step o r s) := by
  unfold SyncStep.step
  dsimp only
  split
  · rename_i listed delta hpass
    split
    · have hended : ∀ p, (none : Option SyncPass) = some p →
          SyncState.PassOk o r { s.advance delta with delivered := s.delivered ++ delta.fragments }
            p := nofun
      exact (h.deliver hpass).setPass i hended
    · exact h.setPass i nofun
  · exact h.setPass i nofun

theorem following_step (step : SyncStep) (s : SyncState) (h : Following o r s)
    (hnoticed : step.Noticed o r s) : Following o r (step.step o r s) := by
  cases step with
  | commit t => exact following_commit h hnoticed
  | begin i => exact following_begin h i
  | listFirst i => exact following_listFirst h i
  | listAll i => exact following_listAll h i
  | finish i ok => exact following_finish h i ok

end Steps

/-- When every committed version is noticed, each version that a successful
pass has listed is in its delta or in an earlier one. -/
theorem sync_loses_nothing (o : SyncOptions) (r : Redaction) {steps : List SyncStep}
    (hnoticed : Along (SyncStep.step o r) (SyncStep.Noticed o r) steps .start) {i : Nat}
    {listed : List Fragment} {delta : SyncDelta}
    (hpass : (run (SyncStep.step o r) steps .start).passes i = some (.packed listed delta)) :
    ∀ f ∈ listed, o.wants f = true → o.pack r f ∈
      ((SyncStep.finish i true).step o r (run (SyncStep.step o r) steps .start)).delivered := by
  have hfollowing := hnoticed.invariant following_step following_start
  generalize run (SyncStep.step o r) steps .start = s at hpass hfollowing ⊢
  intro f hf hwants
  have hmem := (hfollowing.passes i _ hpass).2 f hf hwants
  unfold SyncStep.step
  dsimp only
  rw [hpass]
  exact hmem

/-! ### One memory -/

/-- A memory that was last updated at that time. -/
def portAt (updatedAt : Int) : Fragment where
  id := "m"
  content := "the port is 8080"
  blockId := none
  scope := .agent
  tier := .episodic
  agentId := "a"
  sessionId := none
  importance := 1 / 2
  state := .unverified
  confidence := 1
  ttlSeconds := none
  createdAt := 1
  updatedAt := updatedAt
  lastAccessedAt := none
  tags := []
  source := none
  metadata := []
  embedding := none
  contradictionIds := []

def Redaction.off : Redaction := ⟨id, fun _ => false⟩

/-- `store.store(fragment)` -/
def storing (f : Fragment) : SyncStep := .commit do
  let _ ← store .basic f

/-- A pass with nothing in between, up to its upload. -/
def packPass (i : Nat) : List SyncStep := [.begin i, .listFirst i, .listAll i]

/-- The memory is stored and synced, stored again later, and the second pass
is about to upload. -/
def syncedTwice : List SyncStep :=
  storing (portAt 1) :: packPass 0 ++ [.finish 0 true, storing (portAt 2)] ++ packPass 1

theorem sync_loses_nothing_twice :
    SyncOptions.pack {} .off (portAt 2) ∈
      ((SyncStep.finish 1 true).step {} .off
        (run (SyncStep.step {} .off) syncedTwice .start)).delivered := by
  have hlisted : portAt 2 ∈
      (run (SyncStep.step {} .off) syncedTwice .start).store.db.fragments.rows :=
    List.mem_singleton_self _
  refine sync_loses_nothing {} .off ?_ (i := 1) rfl (portAt 2) hlisted (by decide +kernel)
  have hfirst : (storing (portAt 1)).Noticed {} .off .start := by
    intro f hf _
    obtain rfl : f = portAt 1 := List.mem_singleton.mp hf
    refine ⟨rfl, ?_, ?_, by decide +kernel⟩
    · intro i listed delta hpass
      cases hpass
    · intro i since set first hpass
      cases hpass
  have hsecond : (storing (portAt 2)).Noticed {} .off
      (run (SyncStep.step {} .off) (storing (portAt 1) :: packPass 0 ++ [.finish 0 true])
        .start) := by
    have hpasses : ∀ i, (run (SyncStep.step {} .off) (storing (portAt 1) :: packPass 0 ++
        [.finish 0 true]) .start).passes i = none := by
      intro i
      by_cases hi : i = 0
      · obtain rfl := hi
        rfl
      · have hpass : ∀ (s : SyncState) (pass : Option SyncPass),
            (s.setPass 0 pass).passes i = s.passes i :=
          fun s pass => Function.update_of_ne hi _ _
        refine (hpass _ _).trans ?_
        refine (congrFun (passes_advance _ _) i).trans ?_
        exact (hpass _ _).trans ((hpass _ _).trans ((hpass _ _).trans rfl))
    intro f hf _
    obtain rfl : f = portAt 2 := List.mem_singleton.mp hf
    refine ⟨by decide +kernel, ?_, ?_, by decide +kernel⟩
    · intro i listed delta hpass
      rw [hpasses] at hpass
      cases hpass
    · intro i since set first hpass
      rw [hpasses] at hpass
      cases hpass
  exact ⟨hfirst, trivial, trivial, trivial, trivial, hsecond, trivial, trivial, trivial, trivial⟩

/-- Half of the importance is left, whatever the age. -/
def halving : Decay := ⟨0, fun _ => 1 / 2, fun _ => none, toString, fun _ => .int 0⟩

/-- What `_persist_decay` writes of the memory. -/
def decayedPort : Fragment :=
  { portAt 1 with
    importance := halving.apply .basic (portAt 1) 2
    metadata := halving.decayMetadata (portAt 1) 2 }

/-- The memory decays after the first pass, and keeps its stamp. -/
def decayedInBetween : List SyncStep :=
  storing (portAt 1) :: packPass 0 ++ [.finish 0 true, storing decayedPort] ++ packPass 1

theorem decay_not_synced :
    ¬ ∀ (o : SyncOptions) (r : Redaction) (steps : List SyncStep) (i : Nat)
      (listed : List Fragment) (delta : SyncDelta),
      (run (SyncStep.step o r) steps .start).passes i = some (.packed listed delta) →
        (∀ f ∈ listed, strip (o.content r f) ≠ "") →
          ∀ f ∈ listed, o.wants f = true → o.pack r f ∈
            ((SyncStep.finish i true).step o r
              (run (SyncStep.step o r) steps .start)).delivered := by
  intro h
  have hlisted : ∀ f ∈ [decayedPort], strip (SyncOptions.content {} .off f) ≠ "" := by
    intro f hf
    obtain rfl := List.mem_singleton.mp hf
    decide +kernel
  have hmem := h {} .off decayedInBetween 1 [decayedPort] _ rfl hlisted decayedPort
    (List.mem_singleton_self _) (by decide +kernel)
  have himportance : (((SyncStep.finish 1 true).step {} .off
      (run (SyncStep.step {} .off) decayedInBetween .start)).delivered.map
        SyncFragment.importance) = [1 / 2] := by decide +kernel
  have hdecayed := List.mem_map_of_mem (f := SyncFragment.importance) hmem
  rw [himportance] at hdecayed
  exact absurd hdecayed (by decide +kernel)

end MarkSdk
