import MarkSdk.Retrieval.Render

/-!
Trust-filtered retrieval over the memory bus.

The bus records a message with a trust level for each fragment it publishes or
loads. `retrieve_sync` cuts fragments and scores to the trusted ones and leaves
the relevances as they are, so that they belong to the kept fragments exactly
when none is dropped (`retrieveSync_filtered_iff`).
-/

namespace MarkSdk

inductive PublisherTrust : Type
  | system | verifiedAgent | rawAgent | external | unknown
  deriving DecidableEq, Repr

/-- `_TRUST_RANK` -/
def PublisherTrust.rank : PublisherTrust → Nat
  | .system => 4
  | .verifiedAgent => 3
  | .rawAgent => 2
  | .external => 1
  | .unknown => 0

structure BusMessage where
  id : String
  content : String
  publisher : String
  trust : PublisherTrust
  tags : List String
  timestamp : String
  metadata : Metadata

structure BusSubscription where
  topics : List String
  tags : List String
  minTrust : PublisherTrust

def BusSubscription.matches (sub : BusSubscription) (m : BusMessage) : Bool :=
  if sub.topics ≠ [] ∧ ¬ sub.topics.any fun t => t ∈ m.tags then false
  else if sub.tags ≠ [] ∧ ¬ sub.tags.all fun t => t ∈ m.tags then false
  else ! decide (m.trust.rank < sub.minTrust.rank)

/-- The ids with a message of at least this trust. -/
def keepIds (messages : List BusMessage) (minTrust : PublisherTrust) : List String :=
  (messages.filter fun m => minTrust.rank ≤ m.trust.rank).map BusMessage.id

/-- `retrieve_sync`, on the result that the wrapped bus returns. -/
def retrieveSync (messages : List BusMessage) (result : RetrievalResult)
    (minTrust : PublisherTrust) : RetrievalResult :=
  if minTrust = .unknown then result
  else
    let keep := keepIds messages minTrust
    { result with
      fragments := result.fragments.filter fun f => f.id ∈ keep
      scores := ((result.fragments.zip result.scores).filter fun r => r.1.id ∈ keep).map Prod.snd }

/-- A fragment with its score and its relevance. -/
def RetrievalResult.rows (result : RetrievalResult) : List (Fragment × BitVec 64 × BitVec 64) :=
  result.fragments.zip (result.scores.zip result.relevance)

/-- The sequences are parallel. -/
structure RetrievalResult.Parallel (result : RetrievalResult) : Prop where
  scores : result.scores.length = result.fragments.length
  relevance : result.relevance.length = result.fragments.length

/-- The bus has a message for the fragment, of at least this trust. -/
def Trusted (messages : List BusMessage) (minTrust : PublisherTrust) (f : Fragment) : Prop :=
  ∃ m ∈ messages, m.id = f.id ∧ minTrust.rank ≤ m.trust.rank

instance (messages : List BusMessage) (minTrust : PublisherTrust) (f : Fragment) :
    Decidable (Trusted messages minTrust f) :=
  inferInstanceAs (Decidable (∃ m ∈ messages, m.id = f.id ∧ minTrust.rank ≤ m.trust.rank))

/-- The trusted fragments in their order, each with its own score and relevance. -/
structure TrustFiltered (messages : List BusMessage) (minTrust : PublisherTrust)
    (result after : RetrievalResult) : Prop where
  parallel : after.Parallel
  fragments : after.fragments = result.fragments.filter fun f => Trusted messages minTrust f
  rows : after.rows = result.rows.filter fun r => Trusted messages minTrust r.1

variable {messages : List BusMessage} {minTrust : PublisherTrust} {result : RetrievalResult}

theorem mem_keepIds_iff (f : Fragment) :
    f.id ∈ keepIds messages minTrust ↔ Trusted messages minTrust f := by
  rw [keepIds, List.mem_map]
  constructor
  · rintro ⟨m, hm, hid⟩
    obtain ⟨hmem, hrank⟩ := List.mem_filter.mp hm
    exact ⟨m, hmem, hid, of_decide_eq_true hrank⟩
  · rintro ⟨m, hmem, hid, hrank⟩
    exact ⟨m, List.mem_filter.mpr ⟨hmem, decide_eq_true hrank⟩, hid⟩

/-- The fragments that a call with a trust level keeps. -/
theorem retrieveSync_fragments (h : minTrust ≠ .unknown) :
    (retrieveSync messages result minTrust).fragments =
      result.fragments.filter fun f => Trusted messages minTrust f := by
  rw [retrieveSync, if_neg h]
  show result.fragments.filter _ = _
  simp only [mem_keepIds_iff]

theorem retrieveSync_relevance :
    (retrieveSync messages result minTrust).relevance = result.relevance := by
  rw [retrieveSync]
  split <;> rfl

/-- Fragments and scores are cut at the same places. -/
theorem retrieveSync_scores (h : result.Parallel) :
    (retrieveSync messages result minTrust).fragments.zip
        (retrieveSync messages result minTrust).scores =
      (result.fragments.zip result.scores).filter fun r =>
        minTrust = .unknown ∨ Trusted messages minTrust r.1 := by
  by_cases hunknown : minTrust = .unknown
  · rw [retrieveSync, if_pos hunknown]
    simp [hunknown]
  · rw [retrieveSync, if_neg hunknown]
    simp only [mem_keepIds_iff, hunknown, false_or]
    have hzip := h.scores
    revert hzip
    generalize result.fragments = fragments
    generalize result.scores = scores
    intro hzip
    induction fragments generalizing scores with
    | nil => rfl
    | cons f fragments ih =>
        obtain ⟨s, scores, rfl⟩ := List.exists_cons_of_length_eq_add_one hzip
        have hrest := ih scores (Nat.succ.inj hzip)
        rw [List.zip_cons_cons, List.filter_cons, List.filter_cons]
        by_cases hf : Trusted messages minTrust f
        · simp only [hf, decide_true, if_true, List.map_cons, List.zip_cons_cons, hrest]
        · simp only [hf, decide_false, Bool.false_eq_true, if_false, hrest]

/-- The filtered result is parallel and right exactly when the bus trusts every
fragment of the result, that is when it drops none. -/
theorem retrieveSync_filtered_iff (messages : List BusMessage) (result : RetrievalResult)
    (minTrust : PublisherTrust) (h : result.Parallel) :
    TrustFiltered messages minTrust result (retrieveSync messages result minTrust) ↔
      ∀ f ∈ result.fragments, Trusted messages minTrust f := by
  constructor
  · intro hfiltered
    -- the relevances are all there, so no fragment is missing
    have hlength := hfiltered.parallel.relevance
    rw [retrieveSync_relevance, h.relevance, hfiltered.fragments] at hlength
    intro f hf
    exact of_decide_eq_true (List.length_filter_eq_length_iff.mp hlength.symm f hf)
  · intro hall
    have hkeep : (result.fragments.filter fun f => Trusted messages minTrust f) =
        result.fragments := List.filter_eq_self.mpr fun f hf => decide_eq_true (hall f hf)
    have hrows : (result.rows.filter fun r => Trusted messages minTrust r.1) = result.rows := by
      refine List.filter_eq_self.mpr fun r hr => decide_eq_true ?_
      obtain ⟨f, rest⟩ := r
      exact hall f (List.of_mem_zip hr).1
    have hsame : retrieveSync messages result minTrust = result := by
      rw [retrieveSync]
      split
      · rfl
      · have hscores : ((result.fragments.zip result.scores).filter fun r =>
            Trusted messages minTrust r.1) = result.fragments.zip result.scores := by
          refine List.filter_eq_self.mpr fun r hr => decide_eq_true ?_
          obtain ⟨f, s⟩ := r
          exact hall f (List.of_mem_zip hr).1
        simp only [mem_keepIds_iff, hkeep, hscores, List.map_snd_zip (Nat.le_of_eq h.scores)]
    rw [hsame]
    exact ⟨h, hkeep.symm, hrows.symm⟩

/-- Two published facts, the second by a less trusted publisher. -/
def busFact (id : String) : Fragment :=
  ⟨id, id, none, .global, .semantic, "__global_bus__", none, 1, .unverified, 1, none, 0, 0, none,
    ["global_bus"], none, [], none, []⟩

def busMessages : List BusMessage :=
  [⟨"release", "release", "ci", .system, [], "", []⟩, ⟨"rumour", "rumour", "bot", .external, [], "", []⟩]

def busResult : RetrievalResult :=
  ⟨"what shipped?", [busFact "rumour", busFact "release"], [3, 2], [3, 2], [], [], false, [], .none, ""⟩

theorem retrieveSync_filtered_external :
    busResult.Parallel ∧
      TrustFiltered busMessages .external busResult
        (retrieveSync busMessages busResult .external) := by
  have hparallel : busResult.Parallel := ⟨rfl, rfl⟩
  exact ⟨hparallel, (retrieveSync_filtered_iff busMessages busResult .external hparallel).mpr
    (by decide)⟩

/-- One fragment is left, with two relevances, of which the first is the
dropped fragment's. -/
theorem retrieveSync_relevance_kept :
    ¬ ∀ (messages : List BusMessage) (result : RetrievalResult) (minTrust : PublisherTrust),
      result.Parallel → TrustFiltered messages minTrust result
        (retrieveSync messages result minTrust) := by
  intro h
  have hlength := (h busMessages busResult .system ⟨rfl, rfl⟩).parallel.relevance
  revert hlength
  decide

end MarkSdk
