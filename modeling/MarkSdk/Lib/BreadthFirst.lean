import Mathlib.Data.List.Nodup
import Mathlib.Data.List.Perm.Subperm

/-!
Breadth-first search with a queue.

The queue is the part of the entries not worked through yet, in the order in
which they were found, each with its hops. What was found at the first visit
is never visited again, so an entry has the hops of a shortest walk
(`search_shortest`), and the entries are those in reach (`search_reaches`).
-/

namespace MarkSdk.Lib

variable {α : Type} [DecidableEq α]

/-- A search in progress: what has been visited, what has been found with its
hops, and what of it has not been worked through. -/
structure Search (α : Type) where
  visited : List α
  found : List (α × Nat)
  queue : List (α × Nat)

namespace Search

/-- One neighbour: it is visited, and found if it can be entered. -/
def visit (enter : α → Bool) (hops : Nat) (s : Search α) (n : α) : Search α :=
  if n ∈ s.visited then s
  else if enter n then
    { visited := n :: s.visited
      found := s.found ++ [(n, hops)]
      queue := s.queue ++ [(n, hops)] }
  else { s with visited := n :: s.visited }

end Search

/-- The loop of the search; none where the turns run out. -/
def searchFrom (next : α → List α) (enter : α → Bool) (depth : Nat) :
    Nat → Search α → Option (List (α × Nat))
  | 0, _ => none
  | turns + 1, s =>
      match s.queue with
      | [] => some s.found
      | (current, hops) :: queue =>
          if depth ≤ hops then searchFrom next enter depth turns { s with queue := queue }
          else searchFrom next enter depth turns
            ((next current).foldl (Search.visit enter (hops + 1)) { s with queue := queue })

/-- Everything within `depth` hops of `start`, which is no part of it. -/
def search (next : α → List α) (enter : α → Bool) (depth : Nat) (start : α) (turns : Nat) :
    Option (List (α × Nat)) :=
  searchFrom next enter depth turns ⟨[start], [], [(start, 0)]⟩

/-- A walk of some hops from `start` through what can be entered. -/
inductive Walk (next : α → List α) (enter : α → Bool) (start : α) : Nat → α → Prop
  | start : Walk next enter start 0 start
  | step {d : Nat} {a b : α} : Walk next enter start d a → b ∈ next a → enter b = true →
      Walk next enter start (d + 1) b

variable {next : α → List α} {enter : α → Bool} {depth : Nat} {start : α}

/-! ### One entry -/

def Search.entries (start : α) (s : Search α) : List (α × Nat) := (start, 0) :: s.found

/-- The entries are those worked through and the queue; they are told apart,
in reach, sorted by their hops and at most one hop further than `hops`. -/
structure Sound (next : α → List α) (enter : α → Bool) (depth : Nat) (start : α)
    (worked : List (α × Nat)) (hops : Nat) (s : Search α) : Prop where
  entries : s.entries start = worked ++ s.queue
  nodup : ((s.entries start).map Prod.fst).Nodup
  visited : ∀ x, x ∈ s.visited → (∃ d, (x, d) ∈ s.entries start) ∨ enter x = false
  marked : ∀ e ∈ s.entries start, e.1 ∈ s.visited
  walk : ∀ e ∈ s.entries start, Walk next enter start e.2 e.1
  entered : ∀ e ∈ s.found, enter e.1 = true
  depth : ∀ e ∈ s.found, e.2 ≤ depth
  sorted : (s.entries start).Pairwise fun e e' => e.2 ≤ e'.2
  near : ∀ e ∈ s.entries start, e.2 ≤ hops + 1

/-- The neighbours have been found, in at most one hop more. -/
def Found (enter : α → Bool) (start : α) (ns : List α) (hops : Nat) (s : Search α) : Prop :=
  ∀ n ∈ ns, enter n = true → ∃ d, d ≤ hops + 1 ∧ (n, d) ∈ s.entries start

section Visit

variable {worked : List (α × Nat)} {hops : Nat} {s : Search α}

omit [DecidableEq α] in
theorem Found.mono {ns : List α} {s' : Search α} (h : Found enter start ns hops s)
    (hsub : s.entries start ⊆ s'.entries start) : Found enter start ns hops s' := by
  intro n hn henter
  obtain ⟨d, hd, hmem⟩ := h n hn henter
  exact ⟨d, hd, hsub hmem⟩

theorem Sound.visit (h : Sound next enter depth start worked hops s) {x n : α}
    (hx : (x, hops) ∈ s.entries start) (hn : n ∈ next x) (hdepth : hops < depth) :
    Sound next enter depth start worked hops (s.visit enter (hops + 1) n) ∧
      Found enter start [n] hops (s.visit enter (hops + 1) n) ∧
        s.entries start ⊆ (s.visit enter (hops + 1) n).entries start := by
  unfold Search.visit
  split
  · rename_i hold
    refine ⟨h, fun m hm henter => ?_, List.Subset.refl _⟩
    obtain rfl := List.mem_singleton.mp hm
    rcases h.visited m hold with ⟨d, hd⟩ | hclosed
    · exact ⟨d, h.near _ hd, hd⟩
    · rw [henter] at hclosed
      cases hclosed
  · rename_i hnew
    split
    · rename_i henter
      -- the new entry stands last, one hop further
      have hentries : ∀ e, e ∈ (start, 0) :: (s.found ++ [(n, hops + 1)]) ↔
          e ∈ s.entries start ∨ e = (n, hops + 1) := by
        intro e
        rw [← List.cons_append, List.mem_append, List.mem_singleton]
        rfl
      refine ⟨⟨?_, ?_, ?_, ?_, ?_, ?_, ?_, ?_, ?_⟩, ?_, ?_⟩
      · show (start, 0) :: (s.found ++ [(n, hops + 1)]) = worked ++ (s.queue ++ [(n, hops + 1)])
        rw [← List.append_assoc, ← h.entries]
        rfl
      · show (((start, 0) :: (s.found ++ [(n, hops + 1)])).map Prod.fst).Nodup
        rw [← List.cons_append, List.map_append]
        refine h.nodup.append (List.nodup_singleton _) fun y hy hyn => ?_
        obtain rfl := List.mem_singleton.mp hyn
        obtain ⟨e, he, rfl⟩ := List.mem_map.mp hy
        exact hnew (h.marked e he)
      · intro y hy
        rcases List.mem_cons.mp hy with rfl | hy
        · exact .inl ⟨hops + 1, (hentries _).mpr (.inr rfl)⟩
        · rcases h.visited y hy with ⟨d, hd⟩ | hclosed
          · exact .inl ⟨d, (hentries _).mpr (.inl hd)⟩
          · exact .inr hclosed
      · intro e he
        rcases (hentries e).mp he with he | rfl
        · exact List.mem_cons_of_mem _ (h.marked e he)
        · exact List.mem_cons_self
      · intro e he
        rcases (hentries e).mp he with he | rfl
        · exact h.walk e he
        · exact .step (h.walk _ hx) hn henter
      · intro e he
        rcases List.mem_append.mp he with he | he
        · exact h.entered e he
        · rw [List.mem_singleton.mp he]
          exact henter
      · intro e he
        rcases List.mem_append.mp he with he | he
        · exact h.depth e he
        · rw [List.mem_singleton.mp he]
          exact hdepth
      · show ((start, 0) :: (s.found ++ [(n, hops + 1)])).Pairwise _
        rw [← List.cons_append, List.pairwise_append]
        refine ⟨h.sorted, List.pairwise_singleton _ _, fun e he e' he' => ?_⟩
        rw [List.mem_singleton.mp he']
        exact h.near e he
      · intro e he
        rcases (hentries e).mp he with he | rfl
        · exact h.near e he
        · exact Nat.le_refl _
      · intro m hm _
        obtain rfl := List.mem_singleton.mp hm
        exact ⟨hops + 1, Nat.le_refl _, (hentries _).mpr (.inr rfl)⟩
      · exact fun e he => (hentries e).mpr (.inl he)
    · rename_i hclosed
      refine ⟨{ h with visited := ?_, marked := ?_ }, ?_, List.Subset.refl _⟩
      · intro y hy
        rcases List.mem_cons.mp hy with rfl | hy
        · exact .inr (by simpa using hclosed)
        · exact h.visited y hy
      · exact fun e he => List.mem_cons_of_mem _ (h.marked e he)
      · intro m hm henter
        obtain rfl := List.mem_singleton.mp hm
        exact absurd henter hclosed

/-- All neighbours of an entry are found. -/
theorem Sound.visits (h : Sound next enter depth start worked hops s) {x : α}
    (hx : (x, hops) ∈ s.entries start) {ns : List α} (hns : ∀ n ∈ ns, n ∈ next x)
    (hdepth : hops < depth) :
    Sound next enter depth start worked hops (ns.foldl (Search.visit enter (hops + 1)) s) ∧
      Found enter start ns hops (ns.foldl (Search.visit enter (hops + 1)) s) ∧
        s.entries start ⊆ (ns.foldl (Search.visit enter (hops + 1)) s).entries start := by
  induction ns generalizing s with
  | nil => exact ⟨h, fun n hn => absurd hn List.not_mem_nil, List.Subset.refl _⟩
  | cons n ns ih =>
    obtain ⟨hsound, hfound, hsub⟩ := h.visit hx (hns n List.mem_cons_self) hdepth
    obtain ⟨hsound', hfound', hsub'⟩ := ih hsound (hsub hx) fun m hm =>
      hns m (List.mem_cons_of_mem n hm)
    refine ⟨hsound', fun m hm henter => ?_, List.Subset.trans hsub hsub'⟩
    rcases List.mem_cons.mp hm with rfl | hm
    · exact hfound.mono hsub' m (List.mem_singleton.mpr rfl) henter
    · exact hfound' m hm henter

end Visit

/-! ### The loop -/

/-- A sound search in which everything worked through has been left in all
directions, and the queue goes on from where it is. -/
structure Searching (next : α → List α) (enter : α → Bool) (depth : Nat) (start : α)
    (worked : List (α × Nat)) (s : Search α) : Prop where
  sound : ∃ hops, Sound next enter depth start worked hops s ∧ ∀ e ∈ s.queue, hops ≤ e.2
  left : ∀ e ∈ worked, e.2 < depth → Found enter start (next e.1) e.2 s

omit [DecidableEq α] in
theorem searching_start (next : α → List α) (enter : α → Bool) (depth : Nat) (start : α) :
    Searching next enter depth start [] ⟨[start], [], [(start, 0)]⟩ where
  sound := by
    refine ⟨0, ⟨rfl, by simp [Search.entries], ?_, ?_, ?_, ?_, ?_, ?_, ?_⟩, fun e _ => e.2.zero_le⟩
    · intro x hx
      obtain rfl := List.mem_singleton.mp hx
      exact .inl ⟨0, List.mem_cons_self⟩
    · intro e he
      obtain rfl := List.mem_singleton.mp he
      exact List.mem_cons_self
    · intro e he
      obtain rfl := List.mem_singleton.mp he
      exact .start
    · exact fun e he => absurd he List.not_mem_nil
    · exact fun e he => absurd he List.not_mem_nil
    · exact List.pairwise_singleton _ _
    · intro e he
      obtain rfl := List.mem_singleton.mp he
      exact Nat.zero_le _
  left e he := absurd he List.not_mem_nil

/-- The next entry of the queue is worked through. -/
theorem Searching.turn {worked : List (α × Nat)} {s : Search α} {x : α} {hops : Nat}
    {queue : List (α × Nat)} (h : Searching next enter depth start worked s)
    (hqueue : s.queue = (x, hops) :: queue) :
    Searching next enter depth start (worked ++ [(x, hops)])
      (if depth ≤ hops then { s with queue := queue }
        else (next x).foldl (Search.visit enter (hops + 1)) { s with queue := queue }) := by
  obtain ⟨⟨low, hsound, hlow⟩, hleft⟩ := h
  have hx : (x, hops) ∈ s.entries start := by
    rw [hsound.entries, hqueue]
    exact List.mem_append_right _ List.mem_cons_self
  have hpopped : Sound next enter depth start (worked ++ [(x, hops)]) hops
      { s with queue := queue } := by
    refine { hsound with entries := ?_, near := fun e he => ?_ }
    · show s.entries start = (worked ++ [(x, hops)]) ++ queue
      rw [hsound.entries, hqueue, List.append_assoc]
      rfl
    · have hnear := hsound.near e he
      have hhops : low ≤ hops := hlow (x, hops) (hqueue ▸ List.mem_cons_self)
      omega
  -- the entries are sorted, so what is left of the queue is no nearer
  have hrest : ∀ s', Sound next enter depth start (worked ++ [(x, hops)]) hops s' →
      ∀ e ∈ s'.queue, hops ≤ e.2 := by
    intro s' hs' e he
    have hsorted := hs'.sorted
    rw [hs'.entries, List.pairwise_append] at hsorted
    exact hsorted.2.2 (x, hops) (List.mem_append_right _ (List.mem_singleton.mpr rfl)) e he
  by_cases hdeep : depth ≤ hops
  · rw [if_pos hdeep]
    refine ⟨⟨hops, hpopped, hrest _ hpopped⟩, fun e he hlt => ?_⟩
    rcases List.mem_append.mp he with he | he
    · exact (hleft e he hlt).mono (List.Subset.refl _)
    · obtain rfl := List.mem_singleton.mp he
      exact absurd hdeep (Nat.not_le_of_lt hlt)
  · rw [if_neg hdeep]
    obtain ⟨hsound', hfound, hsub⟩ :=
      hpopped.visits hx (fun n hn => hn) (Nat.lt_of_not_le hdeep)
    refine ⟨⟨hops, hsound', hrest _ hsound'⟩, fun e he hlt => ?_⟩
    rcases List.mem_append.mp he with he | he
    · exact (hleft e he hlt).mono hsub
    · obtain rfl := List.mem_singleton.mp he
      exact hfound

/-- What has been found when the queue is empty. -/
structure Reached (next : α → List α) (enter : α → Bool) (depth : Nat) (start : α)
    (found : List (α × Nat)) : Prop where
  /-- Each node is found once. -/
  nodup : (found.map Prod.fst).Nodup
  /-- Found is what a walk of at most `depth` hops leads to, with the hops of a
  shortest one. -/
  shortest : ∀ x d, (x, d) ∈ found ↔ x ≠ start ∧ d ≤ depth ∧ Walk next enter start d x ∧
    ∀ d', Walk next enter start d' x → d ≤ d'
  /-- The nearer ones stand first. -/
  sorted : found.Pairwise fun e e' => e.2 ≤ e'.2

omit [DecidableEq α] in
/-- Every walk has been followed. -/
theorem Searching.complete {worked : List (α × Nat)} {s : Search α}
    (h : Searching next enter depth start worked s) (hqueue : s.queue = []) {d : Nat} {x : α}
    (hwalk : Walk next enter start d x) (hd : d ≤ depth) :
    ∃ d', d' ≤ d ∧ (x, d') ∈ s.entries start := by
  obtain ⟨⟨low, hsound, -⟩, hleft⟩ := h
  have hentries : s.entries start = worked := by
    rw [hsound.entries, hqueue, List.append_nil]
  induction hwalk with
  | start => exact ⟨0, Nat.le_refl 0, List.mem_cons_self⟩
  | step hwalk hnext henter ih =>
    obtain ⟨d', hd', hmem⟩ := ih (by omega)
    obtain ⟨d'', hd'', hmem'⟩ :=
      hleft _ (hentries ▸ hmem) (by dsimp only; omega) _ hnext henter
    exact ⟨d'', by dsimp only at hd''; omega, hmem'⟩

omit [DecidableEq α] in
theorem Searching.reached {worked : List (α × Nat)} {s : Search α}
    (h : Searching next enter depth start worked s) (hqueue : s.queue = []) :
    Reached next enter depth start s.found := by
  obtain ⟨⟨low, hsound, -⟩, -⟩ := id h
  obtain ⟨hstart, hnodup⟩ := List.nodup_cons.mp hsound.nodup
  -- an entry has the hops of every walk that is no longer
  have hleast : ∀ x d, (x, d) ∈ s.found → ∀ d', Walk next enter start d' x → d ≤ d' := by
    intro x d hmem d' hwalk
    by_cases hd' : d' ≤ depth
    · obtain ⟨k, hk, hentry⟩ := h.complete hqueue hwalk hd'
      have hsame : ((x, k) : α × Nat) = (x, d) :=
        List.inj_on_of_nodup_map hsound.nodup hentry (List.mem_cons_of_mem _ hmem) rfl
      rw [← (Prod.mk.inj hsame).2]
      exact hk
    · have hd := hsound.depth _ hmem
      dsimp only at hd
      omega
  refine ⟨hnodup, fun x d => ⟨fun hmem => ⟨?_, hsound.depth _ hmem,
    hsound.walk _ (List.mem_cons_of_mem _ hmem), hleast x d hmem⟩, ?_⟩, ?_⟩
  · rintro rfl
    exact hstart (List.mem_map.mpr ⟨(x, d), hmem, rfl⟩)
  · rintro ⟨hne, hd, hwalk, hmin⟩
    obtain ⟨k, hk, hentry⟩ := h.complete hqueue hwalk hd
    rcases List.mem_cons.mp hentry with heq | hmem
    · exact absurd (Prod.mk.inj heq).1 hne
    · have hle := hmin k (hsound.walk _ hentry)
      obtain rfl : k = d := by omega
      exact hmem
  · exact (List.pairwise_cons.mp hsound.sorted).2

/-- A search that ends has found what is in reach. -/
theorem searchFrom_reached {worked : List (α × Nat)} {s : Search α} {turns : Nat}
    {found : List (α × Nat)} (h : Searching next enter depth start worked s)
    (hfound : searchFrom next enter depth turns s = some found) :
    Reached next enter depth start found := by
  induction turns generalizing worked s with
  | zero => cases hfound
  | succ turns ih =>
    rw [searchFrom] at hfound
    split at hfound
    · rename_i hqueue
      cases hfound
      exact h.reached hqueue
    · rename_i x hops queue hqueue
      have hturn := h.turn hqueue
      split at hfound
      · rename_i hdeep
        rw [if_pos hdeep] at hturn
        exact ih hturn hfound
      · rename_i hdeep
        rw [if_neg hdeep] at hturn
        exact ih hturn hfound

/-- It ends: of finitely many nodes that can be entered, each is worked through
once. -/
theorem searchFrom_ends {nodes : List α} (hnodes : ∀ n, enter n = true → n ∈ nodes)
    {worked : List (α × Nat)} {s : Search α} (turns : Nat)
    (h : Searching next enter depth start worked s)
    (hturns : nodes.length + 1 < worked.length + turns) :
    ∃ found, searchFrom next enter depth turns s = some found := by
  induction turns generalizing worked s with
  | zero =>
    obtain ⟨⟨low, hsound, -⟩, -⟩ := h
    have hcount : s.found.length ≤ nodes.length := by
      rw [← List.length_map (f := Prod.fst)]
      refine ((List.nodup_cons.mp hsound.nodup).2.subperm fun x hx => ?_).length_le
      obtain ⟨e, he, rfl⟩ := List.mem_map.mp hx
      exact hnodes e.1 (hsound.entered e he)
    have hentries := congrArg List.length hsound.entries
    rw [Search.entries, List.length_cons, List.length_append] at hentries
    omega
  | succ turns ih =>
    rw [searchFrom]
    split
    · exact ⟨_, rfl⟩
    · rename_i x hops queue hqueue
      have hturn := h.turn hqueue
      have hlength : nodes.length + 1 < (worked ++ [(x, hops)]).length + turns := by
        rw [List.length_append, List.length_singleton]
        omega
      split
      · rename_i hdeep
        rw [if_pos hdeep] at hturn
        exact ih hturn hlength
      · rename_i hdeep
        rw [if_neg hdeep] at hturn
        exact ih hturn hlength

/-- With enough turns the search ends, and it has found what is in reach. -/
theorem search_reached (next : α → List α) (enter : α → Bool) (depth : Nat) (start : α)
    {nodes : List α} (hnodes : ∀ n, enter n = true → n ∈ nodes) (turns : Nat)
    (hturns : nodes.length + 1 < turns) :
    ∃ found, search next enter depth start turns = some found ∧
      Reached next enter depth start found := by
  obtain ⟨found, hfound⟩ := searchFrom_ends hnodes turns
    (searching_start next enter depth start) (by simpa using hturns)
  exact ⟨found, hfound, searchFrom_reached (searching_start next enter depth start) hfound⟩

end MarkSdk.Lib
