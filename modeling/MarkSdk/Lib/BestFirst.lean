import Mathlib.Algebra.Order.BigOperators.Group.Finset
import Mathlib.Algebra.Order.Ring.Defs
import Mathlib.Data.Finset.Order
import MarkSdk.Lib.Dict

/-!
Scores that spread from seeds along weighted hops, the strongest first.

Every node keeps the strongest score that reached it, and goes on from the
strongest entry that still has hops left, once. What is credited was always
carried by a walk within the limit. The converse needs a condition: a walk of
exactly `limit` hops may raise what a node keeps before a shorter one gets
there, and then the node never goes on. The walks to which that does not
happen are the open ones (`Open`), and all of them are credited
(`spread_credits`).
-/

namespace MarkSdk.Lib

variable {α φ K : Type}

/-- The hops of each node with their weights, the nodes and the owner that a
score enters and leaves by, the scores to start from and the hops allowed. -/
structure Network (α φ K : Type) where
  next : α → List (α × K)
  nodesOf : φ → List α
  owner : α → Option φ
  seeds : Dict φ K
  limit : Nat

/-- An entry of the heap. -/
structure Entry (α K : Type) where
  score : K
  node : α
  depth : Nat

/-- A spreading in progress: what the owners are credited with, the strongest
score of each node, the heap and the nodes that have gone on. -/
structure Spread (α φ K : Type) where
  merged : Dict φ K
  best : Dict α K
  frontier : List (Entry α K)
  expanded : List α

section Loop

variable [LinearOrder α] [DecidableEq φ] [Ring K] [LinearOrder K]

/-- The order of the tuples `(-score, node, depth)`. -/
def Entry.before (e e' : Entry α K) : Bool :=
  decide (e'.score < e.score) ||
    (decide (e.score = e'.score) &&
      (decide (e.node < e'.node) || (decide (e.node = e'.node) && decide (e.depth ≤ e'.depth))))

/-- The heap as a list, the entry that is popped next in front. -/
def push (e : Entry α K) : List (Entry α K) → List (Entry α K)
  | [] => [e]
  | e' :: l => if e.before e' then e :: e' :: l else e' :: push e l

namespace Spread

/-- A node of a seed: it enters the heap if the score is its strongest. -/
def seedNode (score : K) (x : Spread α φ K) (v : α) : Spread α φ K :=
  if (x.best.get? v).getD (-1) < score then
    { x with best := x.best.set v score, frontier := push ⟨score, v, 0⟩ x.frontier }
  else x

def credit (owner : Option φ) (score : K) (merged : Dict φ K) : Dict φ K :=
  match owner with
  | none => merged
  | some f => if (merged.get? f).getD 0 < score then merged.set f score else merged

/-- One hop from a node that goes on with `score` at `depth`. -/
def offer (owner : α → Option φ) (score : K) (depth : Nat) (x : Spread α φ K) (n : α × K) :
    Spread α φ K :=
  if n.1 ∈ x.expanded then x
  else if score * n.2 ≤ (x.best.get? n.1).getD 0 then x
  else
    { x with
      best := x.best.set n.1 (score * n.2)
      merged := credit (owner n.1) (score * n.2) x.merged
      frontier := push ⟨score * n.2, n.1, depth + 1⟩ x.frontier }

end Spread

namespace Network

/-- All seeds with all their nodes. -/
def start (w : Network α φ K) : Spread α φ K :=
  w.seeds.rows.foldl (fun x r => (w.nodesOf r.1).foldl (Spread.seedNode r.2) x)
    ⟨w.seeds, .empty, [], []⟩

/-- The entry in front is popped, and goes on unless its node did so before or
it has no hops left. -/
def turn (w : Network α φ K) (x : Spread α φ K) (e : Entry α K)
    (frontier : List (Entry α K)) : Spread α φ K :=
  if e.node ∈ x.expanded ∨ w.limit ≤ e.depth then { x with frontier := frontier }
  else
    (w.next e.node).foldl (Spread.offer w.owner e.score e.depth)
      { x with frontier := frontier, expanded := e.node :: x.expanded }

/-- The loop; none where the turns run out. -/
def spreadFrom (w : Network α φ K) : Nat → Spread α φ K → Option (Dict φ K)
  | 0, _ => none
  | turns + 1, x =>
      match x.frontier with
      | [] => some x.merged
      | e :: frontier => w.spreadFrom turns (w.turn x e frontier)

def spread (w : Network α φ K) (turns : Nat) : Option (Dict φ K) := w.spreadFrom turns w.start

end Network

end Loop

/-! ### Walks -/

section Walks

variable [DecidableEq φ] [Mul K] [LE K]

/-- A walk of some hops from a node of a seed, and what it carries. -/
inductive Carried (w : Network α φ K) : Nat → K → α → Prop
  | seed {f : φ} {score : K} {v : α} : w.seeds.get? f = some score → v ∈ w.nodesOf f →
      Carried w 0 score v
  | hop {d : Nat} {p c : K} {a b : α} : Carried w d p a → (b, c) ∈ w.next a →
      Carried w (d + 1) (p * c) b

/-- A walk that comes to no node twice, with the nodes it has gone on from. -/
inductive Trail (w : Network α φ K) : List α → K → α → Prop
  | seed {f : φ} {score : K} {v : α} : w.seeds.get? f = some score → v ∈ w.nodesOf f →
      Trail w [] score v
  | hop {past : List α} {p c : K} {a b : α} : Trail w past p a → (b, c) ∈ w.next a →
      b ∉ a :: past → Trail w (a :: past) (p * c) b

/-- A walk of exactly `limit` hops, to no node twice, ends at `v`, at least as
strong as `score` there and as `prev` one hop before. It has not gone on from
the node of `prev`, but perhaps with its last hop. -/
def Late (w : Network α φ K) (score : K) (prev : Option (α × K)) (v : α) : Prop :=
  ∃ u q, prev = some (u, q) ∧ ∃ past p c a, Trail w past p a ∧ past.length + 1 = w.limit ∧
    (v, c) ∈ w.next a ∧ v ∉ a :: past ∧ u ∉ past ∧ score ≤ p * c ∧ q ≤ p

/-- A walk that is not overtaken by a late one at a node that it goes on from. -/
inductive Open (w : Network α φ K) : Nat → Option (α × K) → K → α → Prop
  | seed {f : φ} {score : K} {v : α} : w.seeds.get? f = some score → v ∈ w.nodesOf f →
      Open w 0 none score v
  | hop {d : Nat} {prev : Option (α × K)} {p c : K} {a b : α} : Open w d prev p a →
      ¬ Late w p prev a → (b, c) ∈ w.next a → Open w (d + 1) (some (a, p)) (p * c) b

variable {w : Network α φ K} {past : List α} {p : K} {v : α}

omit [LE K] in
theorem Trail.carried (h : Trail w past p v) : Carried w past.length p v := by
  induction h with
  | seed hf hv => exact .seed hf hv
  | hop _ hn _ ih => exact .hop ih hn

omit [LE K] in
theorem Trail.not_mem (h : Trail w past p v) : v ∉ past := by
  cases h with
  | seed _ _ => exact List.not_mem_nil
  | hop _ _ hfresh => exact hfresh

theorem not_late_none : ¬ Late w p none v := by
  rintro ⟨u, q, hprev, -⟩
  cases hprev

end Walks

section Heap

variable [LinearOrder α] [LinearOrder K] {e e' : Entry α K} {l : List (Entry α K)}

theorem Entry.score_le_of_before (h : e.before e' = true) : e'.score ≤ e.score := by
  rw [Entry.before, Bool.or_eq_true, decide_eq_true_iff, Bool.and_eq_true,
    decide_eq_true_iff] at h
  rcases h with hlt | ⟨heq, -⟩
  · exact hlt.le
  · exact heq.ge

theorem Entry.score_le_of_not_before (h : ¬ e.before e' = true) : e.score ≤ e'.score := by
  rw [Entry.before, Bool.or_eq_true, decide_eq_true_iff, not_or, not_lt] at h
  exact h.1

theorem mem_push : e' ∈ push e l ↔ e' = e ∨ e' ∈ l := by
  induction l with
  | nil => simp [push]
  | cons a l ih =>
    rw [push]
    split
    · rw [List.mem_cons]
    · rw [List.mem_cons, ih, List.mem_cons, or_left_comm]

theorem length_push : (push e l).length = l.length + 1 := by
  induction l with
  | nil => rfl
  | cons a l ih =>
    rw [push]
    split
    · rfl
    · rw [List.length_cons, ih, List.length_cons]

/-- The strongest entry stays in front. -/
theorem sorted_push (h : l.Pairwise fun a b => b.score ≤ a.score) :
    (push e l).Pairwise fun a b => b.score ≤ a.score := by
  induction l with
  | nil => exact List.pairwise_singleton _ _
  | cons a l ih =>
    obtain ⟨ha, hl⟩ := List.pairwise_cons.mp h
    rw [push]
    split
    · rename_i hbefore
      have hle := Entry.score_le_of_before hbefore
      refine List.pairwise_cons.mpr ⟨fun b hb => ?_, h⟩
      rcases List.mem_cons.mp hb with rfl | hb
      · exact hle
      · exact (ha b hb).trans hle
    · rename_i hbefore
      refine List.pairwise_cons.mpr ⟨fun b hb => ?_, ih hl⟩
      rcases mem_push.mp hb with rfl | hb
      · exact Entry.score_le_of_not_before hbefore
      · exact ha b hb

end Heap

/-! ### What a spreading keeps -/

section Spreading

variable [LinearOrder α] [DecidableEq φ] [Ring K] [LinearOrder K]

/-- Weights that only damp, scores that count, and nodes that belong to the
seed they are entered from. -/
structure Network.Damped (w : Network α φ K) : Prop where
  weight : ∀ v, ∀ n ∈ w.next v, 0 ≤ n.2 ∧ n.2 ≤ 1
  seed : ∀ f score, w.seeds.get? f = some score → 0 < score
  owner : ∀ f v, v ∈ w.nodesOf f → ∀ f' ∈ w.owner v, f = f'

/-- The node goes on with a score of at least `p`, has gone on with it, or is
overtaken. -/
def Covered (w : Network α φ K) (settled frontier : List (Entry α K)) (v : α) (p : K)
    (prev : Option (α × K)) : Prop :=
  0 < w.limit → (∃ e ∈ settled, e.node = v ∧ p ≤ e.score) ∨
    (∃ e ∈ frontier, e.node = v ∧ p ≤ e.score ∧ e.depth < w.limit) ∨ Late w p prev v

/-- What reaches a node counts for its strongest score, and for going on. -/
structure Counted (w : Network α φ K) (settled : List (Entry α K)) (x : Spread α φ K) (v : α)
    (p : K) (prev : Option (α × K)) : Prop where
  kept : ∃ b, x.best.get? v = some b ∧ p ≤ b
  covered : Covered w settled x.frontier v p prev

/-- A last hop came to `v` with `score`, from what had gone on before the
latest. -/
def Came (w : Network α φ K) (settled : List (Entry α K)) (top score : K) (v : α) : Prop :=
  ∃ past p c a, Trail w past p a ∧ past.length + 1 = w.limit ∧ (v, c) ∈ w.next a ∧
    v ∉ a :: past ∧ (∀ u ∈ past, ∃ e ∈ settled.tail, e.node = u) ∧ score ≤ p * c ∧ top ≤ p

/-- The entry was reached by a walk through what has gone on. -/
def CameThrough (w : Network α φ K) (settled : List (Entry α K)) (e : Entry α K) : Prop :=
  ∃ past, Trail w past e.score e.node ∧ past.length = e.depth ∧
    ∀ u ∈ past, ∃ e' ∈ settled, e'.node = u

/-- What has gone on is at least as strong as `top`, what is in the heap at
most. The strongest score of a node is credited; and unless the node has gone
on, it is in the heap, with hops left, or it came late. -/
structure Holding (w : Network α φ K) (settled : List (Entry α K)) (top : K)
    (x : Spread α φ K) : Prop where
  expanded : ∀ v, v ∈ x.expanded ↔ ∃ e ∈ settled, e.node = v
  sorted : x.frontier.Pairwise fun a b => b.score ≤ a.score
  once : (settled.map Entry.node).Nodup
  walk : ∀ e ∈ settled ++ x.frontier, CameThrough w settled e ∧ e.depth ≤ w.limit
  pos : ∀ e ∈ settled ++ x.frontier, 0 < e.score
  kept : ∀ e ∈ settled ++ x.frontier, ∃ b, x.best.get? e.node = some b ∧ e.score ≤ b
  shallow : ∀ e ∈ settled, e.depth < w.limit
  above : ∀ e ∈ settled, top ≤ e.score
  below : ∀ e ∈ x.frontier, e.score ≤ top
  best_pos : ∀ v b, x.best.get? v = some b → 0 < b
  live : ∀ v b, x.best.get? v = some b → 0 < w.limit → (∃ e ∈ settled, e.node = v) ∨
    (∃ e ∈ x.frontier, e.node = v ∧ b ≤ e.score ∧ e.depth < w.limit) ∨ Came w settled top b v
  credited : ∀ v b, x.best.get? v = some b → ∀ f ∈ w.owner v,
    ∃ m, x.merged.get? f = some m ∧ b ≤ m
  seeds : ∀ f score, w.seeds.get? f = some score → ∃ m, x.merged.get? f = some m ∧ score ≤ m
  sound : ∀ f m, x.merged.get? f = some m → w.seeds.get? f = some m ∨
    ∃ d v, d ≤ w.limit ∧ Carried w d m v ∧ w.owner v = some f

/-- The heap and the strongest scores only grow. -/
structure Grown (x x' : Spread α φ K) : Prop where
  frontier : x.frontier ⊆ x'.frontier
  best : ∀ v b, x.best.get? v = some b → ∃ b', x'.best.get? v = some b' ∧ b ≤ b'

omit [DecidableEq φ] [Ring K] in
theorem Grown.refl (x : Spread α φ K) : Grown x x :=
  ⟨List.Subset.refl _, fun _ b h => ⟨b, h, le_refl b⟩⟩

omit [DecidableEq φ] [Ring K] in
theorem Grown.trans {x y z : Spread α φ K} (h : Grown x y) (h' : Grown y z) : Grown x z := by
  refine ⟨List.Subset.trans h.frontier h'.frontier, fun v b hb => ?_⟩
  obtain ⟨b', hb', hle⟩ := h.best v b hb
  obtain ⟨b'', hb'', hle'⟩ := h'.best v b' hb'
  exact ⟨b'', hb'', hle.trans hle'⟩

omit [DecidableEq φ] [Ring K] in
/-- Steps that keep an invariant and grow: what each of them makes true, and
growing keeps, holds after all of them. -/
theorem foldl_grown {β : Type} {I : Spread α φ K → Prop} {P : β → Spread α φ K → Prop}
    {step : Spread α φ K → β → Spread α φ K} {bs : List β} {x : Spread α φ K}
    (hgrown : ∀ b x x', Grown x x' → P b x → P b x')
    (hstep : ∀ b ∈ bs, ∀ x, I x → I (step x b) ∧ Grown x (step x b) ∧ P b (step x b)) (hx : I x) :
    I (bs.foldl step x) ∧ Grown x (bs.foldl step x) ∧ ∀ b ∈ bs, P b (bs.foldl step x) := by
  induction bs generalizing x with
  | nil => exact ⟨hx, Grown.refl x, fun b hb => absurd hb List.not_mem_nil⟩
  | cons b bs ih =>
    obtain ⟨hb, hbs⟩ := List.forall_mem_cons.mp hstep
    obtain ⟨hI, hg, hP⟩ := hb x hx
    obtain ⟨hI', hg', hP'⟩ := ih hbs hI
    exact ⟨hI', hg.trans hg', List.forall_mem_cons.mpr ⟨hgrown b _ _ hg' hP, hP'⟩⟩

variable {w : Network α φ K} {settled : List (Entry α K)} {top : K} {x x' : Spread α φ K}
  {v : α} {p : K} {prev : Option (α × K)}

omit [LinearOrder α] in
theorem Late.mono {u : α} {q q' p' : K} (h : Late w p (some (u, q)) v) (hp : p' ≤ p)
    (hq : q' ≤ q) : Late w p' (some (u, q')) v := by
  obtain ⟨u₀, q₀, hprev, past, r, c, a, htrail, hlimit, hn, hfresh, hu, hscore, hle⟩ := h
  cases hprev
  exact ⟨u, q', rfl, past, r, c, a, htrail, hlimit, hn, hfresh, hu, hp.trans hscore, hq.trans hle⟩

omit [LinearOrder α] in
/-- Nothing that came through the latest entry but with its last hop. -/
theorem Came.late {e : Entry α K} {b : K} (h : Came w (e :: settled) e.score b v)
    (honce : ∀ e' ∈ settled, e'.node ≠ e.node) (hp : p ≤ b) :
    Late w p (some (e.node, e.score)) v := by
  obtain ⟨past, r, c, a, htrail, hlimit, hn, hfresh, hpast, hscore, hle⟩ := h
  refine ⟨e.node, e.score, rfl, past, r, c, a, htrail, hlimit, hn, hfresh, fun hmem => ?_,
    hp.trans hscore, hle⟩
  obtain ⟨e', he', hnode⟩ := hpast e.node hmem
  exact honce e' he' hnode

omit [LinearOrder α] in
theorem Came.mono {e : Entry α K} {b : K} (h : Came w settled top b v) (hle : e.score ≤ top) :
    Came w (e :: settled) e.score b v := by
  obtain ⟨past, r, c, a, htrail, hlimit, hn, hfresh, hpast, hscore, htop⟩ := h
  refine ⟨past, r, c, a, htrail, hlimit, hn, hfresh, fun u hu => ?_, hscore, hle.trans htop⟩
  obtain ⟨e', he', hnode⟩ := hpast u hu
  exact ⟨e', List.mem_of_mem_tail he', hnode⟩

omit [LinearOrder α] [LinearOrder K] in
theorem CameThrough.mono {settled' : List (Entry α K)} {e : Entry α K} (h : CameThrough w settled e)
    (hsub : settled ⊆ settled') : CameThrough w settled' e := by
  obtain ⟨past, htrail, hdepth, hpast⟩ := h
  refine ⟨past, htrail, hdepth, fun u hu => ?_⟩
  obtain ⟨e', he', hnode⟩ := hpast u hu
  exact ⟨e', hsub he', hnode⟩

theorem Counted.grown (h : Counted w settled x v p prev) (hgrown : Grown x x') :
    Counted w settled x' v p prev := by
  obtain ⟨⟨b, hb, hle⟩, hcovered⟩ := h
  refine ⟨?_, fun hlimit => ?_⟩
  · obtain ⟨b', hb', hle'⟩ := hgrown.best v b hb
    exact ⟨b', hb', hle.trans hle'⟩
  · rcases hcovered hlimit with hsettled | ⟨e, he, hv, hp, hd⟩ | hlate
    · exact .inl hsettled
    · exact .inr (.inl ⟨e, hgrown.frontier he, hv, hp, hd⟩)
    · exact .inr (.inr hlate)

omit [LinearOrder α] in
/-- The entry in front is popped: what has gone on stands in for it, if it had
hops left. -/
theorem Covered.popped {settled' frontier : List (Entry α K)} {e : Entry α K}
    (h : Covered w settled (e :: frontier) v p prev) (hsub : settled ⊆ settled')
    (hfront : e.depth < w.limit → ∃ e' ∈ settled', e'.node = e.node ∧ e.score ≤ e'.score) :
    Covered w settled' frontier v p prev := by
  intro hlimit
  rcases h hlimit with ⟨e', he', hv, hp⟩ | ⟨e', he', rfl, hp, hd⟩ | hlate
  · exact .inl ⟨e', hsub he', hv, hp⟩
  · rcases List.mem_cons.mp he' with rfl | he'
    · obtain ⟨e'', he'', hnode, hle⟩ := hfront hd
      exact .inl ⟨e'', he'', hnode, hp.trans hle⟩
    · exact .inr (.inl ⟨e', he', rfl, hp, hd⟩)
  · exact .inr (.inr hlate)

theorem get?_credit (o : Option φ) (merged : Dict φ K) (f : φ) :
    (Spread.credit o p merged).get? f =
      if o = some f ∧ (merged.get? f).getD 0 < p then some p else merged.get? f := by
  cases o with
  | none => rw [Spread.credit, if_neg (fun h => nomatch h.1)]
  | some f' =>
    rw [Spread.credit]
    by_cases hlt : (merged.get? f').getD 0 < p
    · rw [if_pos hlt, Dict.get?_set]
      by_cases hf : f = f'
      · subst hf
        rw [if_pos rfl, if_pos ⟨rfl, hlt⟩]
      · rw [if_neg hf, if_neg fun h => hf (Option.some.inj h.1).symm]
    · rw [if_neg hlt, if_neg]
      rintro ⟨hf, hlt'⟩
      obtain rfl := Option.some.inj hf
      exact hlt hlt'

/-- A credit is not lost, and the owner has at least the score. -/
theorem credit_grows {merged : Dict φ K} {f : φ} {m : K} (o : Option φ) (p : K)
    (h : merged.get? f = some m) : ∃ m', (Spread.credit o p merged).get? f = some m' ∧ m ≤ m' := by
  rw [get?_credit]
  split
  · rename_i hlt
    rw [h] at hlt
    exact ⟨p, rfl, hlt.2.le⟩
  · exact ⟨m, h, le_refl m⟩

theorem credit_owner {merged : Dict φ K} {f : φ} (hp : 0 < p) :
    ∃ m, (Spread.credit (some f) p merged).get? f = some m ∧ p ≤ m := by
  rw [get?_credit]
  split
  · exact ⟨p, rfl, le_refl p⟩
  · rename_i hlt
    have hle : p ≤ (merged.get? f).getD 0 := not_lt.mp fun h => hlt ⟨rfl, h⟩
    cases hm : merged.get? f with
    | none =>
      rw [hm] at hle
      exact absurd (hp.trans_le hle) (lt_irrefl 0)
    | some m =>
      rw [hm] at hle
      exact ⟨m, rfl, hle⟩

namespace Holding

variable {e : Entry α K} {n : α × K}

theorem best_nonneg (h : Holding w settled top x) (v : α) : 0 ≤ (x.best.get? v).getD 0 := by
  cases hb : x.best.get? v with
  | none => exact le_refl 0
  | some b => exact (h.best_pos v b hb).le

section Offer

variable (h : Holding w (e :: settled) e.score x)

include h

theorem others_differ : ∀ e' ∈ settled, e'.node ≠ e.node := by
  have honce := h.once
  rw [List.map_cons, List.nodup_cons] at honce
  exact fun e' he' heq => honce.1 (heq ▸ List.mem_map_of_mem he')

/-- The latest entry goes on to a node that has not. -/
theorem reached_hop (hn : n ∈ w.next e.node) (hnew : n.1 ∉ x.expanded) :
    ∃ past, Trail w past e.score e.node ∧ past.length = e.depth ∧ n.1 ∉ e.node :: past ∧
      ∀ u ∈ past, ∃ e' ∈ settled, e'.node = u := by
  obtain ⟨⟨past, htrail, hdepth, hpast⟩, -⟩ := h.walk e (List.mem_append_left _ List.mem_cons_self)
  refine ⟨past, htrail, hdepth, fun hmem => hnew ((h.expanded n.1).mpr ?_), fun u hu => ?_⟩
  · rcases List.mem_cons.mp hmem with heq | hmem
    · exact ⟨e, List.mem_cons_self, heq.symm⟩
    · exact hpast n.1 hmem
  · obtain ⟨e', he', hnode⟩ := hpast u hu
    rcases List.mem_cons.mp he' with rfl | he'
    · exact absurd (hnode ▸ hu) htrail.not_mem
    · exact ⟨e', he', hnode⟩

/-- A hop that ends at its limit came late. -/
theorem came_of_last (hn : n ∈ w.next e.node) (hnew : n.1 ∉ x.expanded)
    (hlast : ¬ e.depth + 1 < w.limit) :
    Came w (e :: settled) e.score (e.score * n.2) n.1 := by
  have hdepth := h.shallow e List.mem_cons_self
  obtain ⟨past, htrail, hlength, hfresh, hpast⟩ := h.reached_hop hn hnew
  exact ⟨past, e.score, n.2, e.node, htrail, by omega, hn, hfresh, hpast, le_refl _, le_refl _⟩

variable [IsOrderedRing K] (hw : w.Damped) (hn : n ∈ w.next e.node)

include hw hn

theorem offered_le : e.score * n.2 ≤ e.score := by
  obtain ⟨-, hle⟩ := hw.weight e.node n hn
  have hpos := h.pos e (List.mem_append_left _ List.mem_cons_self)
  exact mul_le_of_le_one_right hpos.le hle

/-- A hop that is stronger than what its node kept. -/
theorem accept (hnew : n.1 ∉ x.expanded)
    (hlt : ¬ e.score * n.2 ≤ (x.best.get? n.1).getD 0) :
    Holding w (e :: settled) e.score
      { x with
        best := x.best.set n.1 (e.score * n.2)
        merged := Spread.credit (w.owner n.1) (e.score * n.2) x.merged
        frontier := push ⟨e.score * n.2, n.1, e.depth + 1⟩ x.frontier } := by
  have hle := offered_le h hw hn
  have hpos : 0 < e.score * n.2 := (h.best_nonneg n.1).trans_lt (not_le.mp hlt)
  have hdepth := h.shallow e List.mem_cons_self
  obtain ⟨past, htrail, hlength, hfresh, hpast⟩ := h.reached_hop hn hnew
  have hreached : CameThrough w (e :: settled) ⟨e.score * n.2, n.1, e.depth + 1⟩ := by
    refine ⟨e.node :: past, .hop htrail hn hfresh, by rw [List.length_cons, hlength],
      List.forall_mem_cons.mpr ⟨⟨e, List.mem_cons_self, rfl⟩, fun u hu => ?_⟩⟩
    obtain ⟨e', he', hnode⟩ := hpast u hu
    exact ⟨e', List.mem_cons_of_mem e he', hnode⟩
  have hcarried : Carried w (e.depth + 1) (e.score * n.2) n.1 :=
    hlength ▸ (Trail.hop htrail hn hfresh).carried
  -- the entries are those of before and the new one
  have hentries : ∀ e' ∈ e :: settled ++ push ⟨e.score * n.2, n.1, e.depth + 1⟩ x.frontier,
      e' = ⟨e.score * n.2, n.1, e.depth + 1⟩ ∨ e' ∈ e :: settled ++ x.frontier := by
    intro e' he'
    rcases List.mem_append.mp he' with he' | he'
    · exact .inr (List.mem_append_left _ he')
    · exact (mem_push.mp he').imp_right fun h' => List.mem_append_right _ h'
  have hbest : ∀ v b, (x.best.set n.1 (e.score * n.2)).get? v = some b →
      v = n.1 ∧ b = e.score * n.2 ∨ v ≠ n.1 ∧ x.best.get? v = some b := by
    intro v b hb
    rw [Dict.get?_set] at hb
    split at hb
    · rename_i hv
      exact .inl ⟨hv, (Option.some.inj hb).symm⟩
    · rename_i hv
      exact .inr ⟨hv, hb⟩
  refine
    { h with
      sorted := sorted_push h.sorted, walk := ?_, pos := ?_, kept := ?_, below := ?_,
      best_pos := ?_, live := ?_, credited := ?_, seeds := ?_, sound := ?_ }
  · intro e' he'
    rcases hentries e' he' with rfl | he'
    · exact ⟨hreached, hdepth⟩
    · exact h.walk e' he'
  · intro e' he'
    rcases hentries e' he' with rfl | he'
    · exact hpos
    · exact h.pos e' he'
  · intro e' he'
    show ∃ b, (x.best.set n.1 (e.score * n.2)).get? e'.node = some b ∧ e'.score ≤ b
    rw [Dict.get?_set]
    rcases hentries e' he' with rfl | he'
    · exact ⟨_, if_pos rfl, le_refl _⟩
    · obtain ⟨b, hb, hle'⟩ := h.kept e' he'
      split
      · rename_i hv
        rw [← hv, hb] at hlt
        exact ⟨_, rfl, hle'.trans (not_le.mp hlt).le⟩
      · exact ⟨b, hb, hle'⟩
  · intro e' he'
    rcases mem_push.mp he' with rfl | he'
    · exact hle
    · exact h.below e' he'
  · intro v b hb
    rcases hbest v b hb with ⟨-, rfl⟩ | ⟨-, hb⟩
    · exact hpos
    · exact h.best_pos v b hb
  · intro v b hb hlimit
    rcases hbest v b hb with ⟨rfl, rfl⟩ | ⟨-, hb⟩
    · by_cases hlast : e.depth + 1 < w.limit
      · exact .inr (.inl ⟨_, mem_push.mpr (.inl rfl), rfl, le_refl _, hlast⟩)
      · exact .inr (.inr (h.came_of_last hn hnew hlast))
    · rcases h.live v b hb hlimit with hsettled | ⟨e', he', hv, hscore, hd⟩ | hcame
      · exact .inl hsettled
      · exact .inr (.inl ⟨e', mem_push.mpr (.inr he'), hv, hscore, hd⟩)
      · exact .inr (.inr hcame)
  · intro v b hb f hf
    rcases hbest v b hb with ⟨rfl, rfl⟩ | ⟨-, hb⟩
    · rw [Option.mem_def.mp hf]
      exact credit_owner hpos
    · obtain ⟨m, hm, hbm⟩ := h.credited v b hb f hf
      obtain ⟨m', hm', hmm⟩ := credit_grows (w.owner n.1) (e.score * n.2) hm
      exact ⟨m', hm', hbm.trans hmm⟩
  · intro f score hf
    obtain ⟨m, hm, hbm⟩ := h.seeds f score hf
    obtain ⟨m', hm', hmm⟩ := credit_grows (w.owner n.1) (e.score * n.2) hm
    exact ⟨m', hm', hbm.trans hmm⟩
  · intro f m hm
    rw [get?_credit] at hm
    split at hm
    · rename_i hf
      obtain rfl := Option.some.inj hm
      exact .inr ⟨e.depth + 1, n.1, hdepth, hcarried, hf.1⟩
    · exact h.sound f m hm

/-- One hop is offered: whether it is taken or not, it counts. -/
theorem offer : Holding w (e :: settled) e.score (x.offer w.owner e.score e.depth n) ∧
    Grown x (x.offer w.owner e.score e.depth n) ∧
    (0 < e.score * n.2 → Counted w (e :: settled) (x.offer w.owner e.score e.depth n) n.1
      (e.score * n.2) (some (e.node, e.score))) := by
  have hle := offered_le h hw hn
  have hothers := h.others_differ
  rw [Spread.offer]
  split
  · rename_i hold
    -- what has gone on is at least as strong
    refine ⟨h, Grown.refl x, fun _ => ?_⟩
    obtain ⟨e', he', hnode⟩ := (h.expanded n.1).mp hold
    have hle' := hle.trans (h.above e' he')
    obtain ⟨b, hb, hscore⟩ := h.kept e' (List.mem_append_left _ he')
    exact ⟨⟨b, hnode ▸ hb, hle'.trans hscore⟩, fun _ => .inl ⟨e', he', hnode, hle'⟩⟩
  · rename_i hnew
    split
    · rename_i hweak
      refine ⟨h, Grown.refl x, fun hpos => ?_⟩
      cases hb : x.best.get? n.1 with
      | none =>
        rw [hb] at hweak
        exact absurd (hpos.trans_le hweak) (lt_irrefl 0)
      | some b =>
        rw [hb] at hweak
        refine ⟨⟨b, hb, hweak⟩, fun hlimit => ?_⟩
        rcases h.live n.1 b hb hlimit with hsettled | ⟨e', he', hv, hscore, hd⟩ | hcame
        · exact absurd ((h.expanded n.1).mpr hsettled) hnew
        · exact .inr (.inl ⟨e', he', hv, le_trans hweak hscore, hd⟩)
        · exact .inr (.inr (hcame.late hothers hweak))
    · rename_i hlt
      refine ⟨accept h hw hn hnew hlt, ⟨fun e' he' => mem_push.mpr (.inr he'), ?_⟩,
        fun _ => ⟨⟨_, ?_, le_refl _⟩, fun _ => ?_⟩⟩
      · intro v b hb
        show ∃ b', (x.best.set n.1 (e.score * n.2)).get? v = some b' ∧ b ≤ b'
        rw [Dict.get?_set]
        split
        · rename_i hv
          rw [← hv, hb] at hlt
          exact ⟨_, rfl, (not_le.mp hlt).le⟩
        · exact ⟨b, hb, le_refl b⟩
      · show (x.best.set n.1 (e.score * n.2)).get? n.1 = _
        rw [Dict.get?_set, if_pos rfl]
      · by_cases hlast : e.depth + 1 < w.limit
        · exact .inr (.inl ⟨_, mem_push.mpr (.inl rfl), rfl, le_refl _, hlast⟩)
        · exact .inr (.inr ((h.came_of_last hn hnew hlast).late hothers (le_refl _)))

omit hn in
/-- All hops from an entry. -/
theorem offers {ns : List (α × K)} (hns : ∀ n ∈ ns, n ∈ w.next e.node) :
    Holding w (e :: settled) e.score (ns.foldl (Spread.offer w.owner e.score e.depth) x) ∧
      Grown x (ns.foldl (Spread.offer w.owner e.score e.depth) x) ∧
      ∀ n ∈ ns, 0 < e.score * n.2 →
        Counted w (e :: settled) (ns.foldl (Spread.offer w.owner e.score e.depth) x) n.1
          (e.score * n.2) (some (e.node, e.score)) := by
  refine foldl_grown (I := Holding w (e :: settled) e.score)
    (P := fun (n : α × K) x => 0 < e.score * n.2 →
      Counted w (e :: settled) x n.1 (e.score * n.2) (some (e.node, e.score))) ?_ ?_ h
  · exact fun n x x' hgrown hcounted hpos => (hcounted hpos).grown hgrown
  · exact fun n hn x hx => offer hx hw (hns n hn)

end Offer

section Pop

variable {frontier : List (Entry α K)}

/-- An entry that does not go on. -/
theorem skip (h : Holding w settled top x) (hfrontier : x.frontier = e :: frontier)
    (hskip : e.node ∈ x.expanded ∨ w.limit ≤ e.depth) :
    Holding w settled top { x with frontier := frontier } := by
  have hentries : ∀ e' ∈ settled ++ frontier, e' ∈ settled ++ x.frontier := by
    intro e' he'
    rw [hfrontier]
    exact (List.Sublist.append_left (List.sublist_cons_self e frontier) settled).subset he'
  have hsorted := h.sorted
  rw [hfrontier, List.pairwise_cons] at hsorted
  refine
    { h with
      sorted := hsorted.2, walk := fun e' he' => h.walk e' (hentries e' he')
      pos := fun e' he' => h.pos e' (hentries e' he')
      kept := fun e' he' => h.kept e' (hentries e' he'), below := ?_, live := ?_ }
  · intro e' he'
    exact h.below e' (hfrontier ▸ List.mem_cons_of_mem e he')
  · intro v b hb hlimit
    rcases h.live v b hb hlimit with hsettled | ⟨e', he', hv, hscore, hd⟩ | hcame
    · exact .inl hsettled
    · rw [hfrontier] at he'
      rcases List.mem_cons.mp he' with rfl | he'
      · rcases hskip with hold | hdeep
        · exact .inl ((h.expanded v).mp (hv ▸ hold))
        · omega
      · exact .inr (.inl ⟨e', he', hv, hscore, hd⟩)
    · exact .inr (.inr hcame)

/-- An entry that goes on. -/
theorem settle (h : Holding w settled top x) (hfrontier : x.frontier = e :: frontier)
    (hnew : e.node ∉ x.expanded) (hdepth : e.depth < w.limit) :
    Holding w (e :: settled) e.score
      { x with frontier := frontier, expanded := e.node :: x.expanded } := by
  have hentries : ∀ e' ∈ e :: settled ++ frontier, e' ∈ settled ++ x.frontier := by
    intro e' he'
    rw [hfrontier]
    exact List.perm_middle.symm.subset he'
  have he : e ∈ x.frontier := hfrontier ▸ List.mem_cons_self
  have hsorted := h.sorted
  rw [hfrontier, List.pairwise_cons] at hsorted
  refine
    { h with
      expanded := ?_, sorted := hsorted.2, once := ?_, walk := fun e' he' => ?_
      pos := fun e' he' => h.pos e' (hentries e' he')
      kept := fun e' he' => h.kept e' (hentries e' he'), shallow := ?_, above := ?_
      below := hsorted.1, live := ?_ }
  · intro v
    show v ∈ e.node :: x.expanded ↔ _
    rw [List.mem_cons, h.expanded, List.exists_mem_cons_iff, eq_comm]
  · rw [List.map_cons, List.nodup_cons]
    refine ⟨fun hmem => hnew ((h.expanded e.node).mpr ?_), h.once⟩
    exact List.mem_map.mp hmem
  · obtain ⟨hreached, hlimit⟩ := h.walk e' (hentries e' he')
    exact ⟨hreached.mono (List.subset_cons_self e settled), hlimit⟩
  · exact List.forall_mem_cons.mpr ⟨hdepth, h.shallow⟩
  · refine List.forall_mem_cons.mpr ⟨le_refl _, fun e' he' => ?_⟩
    exact (h.below e he).trans (h.above e' he')
  · intro v b hb hlimit
    rcases h.live v b hb hlimit with ⟨e', he', hv⟩ | ⟨e', he', hv, hscore, hd⟩ | hcame
    · exact .inl ⟨e', List.mem_cons_of_mem e he', hv⟩
    · rw [hfrontier] at he'
      rcases List.mem_cons.mp he' with rfl | he'
      · exact .inl ⟨e', List.mem_cons_self, hv⟩
      · exact .inr (.inl ⟨e', he', hv, hscore, hd⟩)
    · exact .inr (.inr (hcame.mono (h.below e he)))

end Pop

end Holding

/-- The nodes of the seeds and the hops from what has gone on count. -/
structure Spreading (w : Network α φ K) (settled : List (Entry α K)) (top : K)
    (x : Spread α φ K) : Prop where
  holding : Holding w settled top x
  seeded : ∀ f score, w.seeds.get? f = some score → ∀ v ∈ w.nodesOf f,
    Counted w settled x v score none
  left : ∀ e ∈ settled, ∀ n ∈ w.next e.node, 0 < e.score * n.2 →
    Counted w settled x n.1 (e.score * n.2) (some (e.node, e.score))

/-- One turn of the loop. -/
theorem Spreading.turn [IsOrderedRing K] {e : Entry α K} {frontier : List (Entry α K)}
    (hw : w.Damped) (h : Spreading w settled top x) (hfrontier : x.frontier = e :: frontier) :
    ∃ settled' top', Spreading w settled' top' (w.turn x e frontier) := by
  obtain ⟨hhold, hseeded, hleft⟩ := h
  rw [Network.turn]
  split
  · rename_i hskip
    have hcounted : ∀ v p prev, Counted w settled x v p prev →
        Counted w settled { x with frontier := frontier } v p prev := by
      intro v p prev hp
      have hcovered := hp.covered
      rw [hfrontier] at hcovered
      refine ⟨hp.kept, hcovered.popped (List.Subset.refl _) fun hdepth => ?_⟩
      rcases hskip with hold | hdeep
      · obtain ⟨e', he', hnode⟩ := (hhold.expanded e.node).mp hold
        exact ⟨e', he', hnode,
          (hhold.below e (hfrontier ▸ List.mem_cons_self)).trans (hhold.above e' he')⟩
      · omega
    exact ⟨settled, top, hhold.skip hfrontier hskip,
      fun f score hf v hv => hcounted _ _ _ (hseeded f score hf v hv),
      fun e' he' n hn hpos => hcounted _ _ _ (hleft e' he' n hn hpos)⟩
  · rename_i hgoes
    obtain ⟨hfirst, hdepth⟩ := not_or.mp hgoes
    have hsettle := hhold.settle hfrontier hfirst (not_le.mp hdepth)
    obtain ⟨hoffers, hgrown, hnew⟩ := Holding.offers hsettle hw fun n hn => hn
    have hcounted : ∀ x', Grown { x with frontier := frontier, expanded := e.node :: x.expanded } x' →
        ∀ v p prev, Counted w settled x v p prev → Counted w (e :: settled) x' v p prev := by
      intro x' hx' v p prev hp
      have hcovered := hp.covered
      rw [hfrontier] at hcovered
      have hpopped : Counted w (e :: settled)
          { x with frontier := frontier, expanded := e.node :: x.expanded } v p prev :=
        ⟨hp.kept, hcovered.popped (List.subset_cons_self e settled) fun _ =>
          ⟨e, List.mem_cons_self, rfl, le_refl _⟩⟩
      exact hpopped.grown hx'
    refine ⟨e :: settled, e.score, hoffers,
      fun f score hf v hv => hcounted _ hgrown _ _ _ (hseeded f score hf v hv),
      fun e' he' n hn hpos => ?_⟩
    rcases List.mem_cons.mp he' with rfl | he'
    · exact hnew n hn hpos
    · exact hcounted _ hgrown _ _ _ (hleft e' he' n hn hpos)

/-! ### The start -/

/-- While the seeds are entered nothing has gone on, and every entry is a
seed. -/
structure Entering (w : Network α φ K) (top : K) (x : Spread α φ K) : Prop where
  holding : Holding w [] top x
  merged : x.merged = w.seeds
  entered : ∀ v b, x.best.get? v = some b → 0 < w.limit →
    ∃ e ∈ x.frontier, e.node = v ∧ b ≤ e.score ∧ e.depth < w.limit

theorem Entering.seedNode [IsOrderedRing K] {f : φ} {score : K} (hw : w.Damped) (h : Entering w top x)
    (hf : w.seeds.get? f = some score) (hv : v ∈ w.nodesOf f) (hscore : score ≤ top) :
    Entering w top (x.seedNode score v) ∧ Grown x (x.seedNode score v) ∧
      Counted w [] (x.seedNode score v) v score none := by
  have hpos := hw.seed f score hf
  obtain ⟨hhold, hmerged, hentered⟩ := h
  rw [Spread.seedNode]
  split
  · rename_i hlt
    have hbest : ∀ u b, (x.best.set v score).get? u = some b →
        u = v ∧ b = score ∨ x.best.get? u = some b := by
      intro u b hb
      rw [Dict.get?_set] at hb
      split at hb
      · rename_i hu
        exact .inl ⟨hu, (Option.some.inj hb).symm⟩
      · exact .inr hb
    have hgrown : ∀ u b, x.best.get? u = some b →
        ∃ b', (x.best.set v score).get? u = some b' ∧ b ≤ b' := by
      intro u b hb
      rw [Dict.get?_set]
      split
      · rename_i hu
        rw [← hu, hb] at hlt
        exact ⟨score, rfl, le_of_lt hlt⟩
      · exact ⟨b, hb, le_refl b⟩
    have hself : (x.best.set v score).get? v = some score := by
      rw [Dict.get?_set, if_pos rfl]
    have hnew : ∀ u b, (x.best.set v score).get? u = some b → 0 < w.limit →
        ∃ e ∈ push ⟨score, v, 0⟩ x.frontier, e.node = u ∧ b ≤ e.score ∧ e.depth < w.limit := by
      intro u b hb hlimit
      rcases hbest u b hb with ⟨rfl, rfl⟩ | hb
      · exact ⟨_, mem_push.mpr (.inl rfl), rfl, le_refl _, hlimit⟩
      · obtain ⟨e, he, hrest⟩ := hentered u b hb hlimit
        exact ⟨e, mem_push.mpr (.inr he), hrest⟩
    refine ⟨⟨?_, hmerged, hnew⟩, ⟨fun e he => mem_push.mpr (.inr he), hgrown⟩,
      ⟨⟨score, hself, le_refl score⟩, fun hlimit =>
        .inr (.inl ⟨_, mem_push.mpr (.inl rfl), rfl, le_refl _, hlimit⟩)⟩⟩
    refine
      { hhold with
        sorted := sorted_push hhold.sorted, walk := ?_, pos := ?_, kept := ?_, below := ?_
        best_pos := ?_, live := ?_, credited := ?_ }
    · intro e he
      rcases mem_push.mp he with rfl | he
      · exact ⟨⟨[], .seed hf hv, rfl, fun u hu => absurd hu List.not_mem_nil⟩, Nat.zero_le _⟩
      · exact hhold.walk e he
    · intro e he
      rcases mem_push.mp he with rfl | he
      · exact hpos
      · exact hhold.pos e he
    · intro e he
      rcases mem_push.mp he with rfl | he
      · exact ⟨score, hself, le_refl score⟩
      · obtain ⟨b, hb, hle⟩ := hhold.kept e he
        obtain ⟨b', hb', hle'⟩ := hgrown _ b hb
        exact ⟨b', hb', hle.trans hle'⟩
    · intro e he
      rcases mem_push.mp he with rfl | he
      · exact hscore
      · exact hhold.below e he
    · intro u b hb
      rcases hbest u b hb with ⟨-, rfl⟩ | hb
      · exact hpos
      · exact hhold.best_pos u b hb
    · exact fun u b hb hlimit => .inr (.inl (hnew u b hb hlimit))
    · intro u b hb f' hf'
      rcases hbest u b hb with ⟨rfl, rfl⟩ | hb
      · obtain rfl := hw.owner f u hv f' hf'
        exact ⟨b, hmerged ▸ hf, le_refl b⟩
      · exact hhold.credited u b hb f' hf'
  · rename_i hlt
    refine ⟨⟨hhold, hmerged, hentered⟩, Grown.refl x, ?_⟩
    cases hb : x.best.get? v with
    | none =>
      rw [hb] at hlt
      exact absurd ((neg_nonpos.mpr zero_le_one).trans_lt hpos) hlt
    | some b =>
      rw [hb] at hlt
      have hle : score ≤ b := not_lt.mp hlt
      refine ⟨⟨b, hb, hle⟩, fun hlimit => ?_⟩
      obtain ⟨e, he, hv, hscore, hd⟩ := hentered v b hb hlimit
      exact .inr (.inl ⟨e, he, hv, hle.trans hscore, hd⟩)

theorem entering_empty (w : Network α φ K) (top : K) :
    Entering w top ⟨w.seeds, .empty, [], []⟩ where
  holding :=
    { expanded := fun v => by simp, sorted := List.Pairwise.nil, once := List.nodup_nil
      walk := fun e he => absurd he List.not_mem_nil
      pos := fun e he => absurd he List.not_mem_nil
      kept := fun e he => absurd he List.not_mem_nil
      shallow := fun e he => absurd he List.not_mem_nil
      above := fun e he => absurd he List.not_mem_nil
      below := fun e he => absurd he List.not_mem_nil
      best_pos := fun v b hb => nomatch hb
      live := fun v b hb => nomatch hb
      credited := fun v b hb => nomatch hb
      seeds := fun f score hf => ⟨score, hf, le_refl score⟩
      sound := fun f m hm => .inl hm }
  merged := rfl
  entered v b hb := nomatch hb

theorem spreading_start [IsOrderedRing K] (hw : w.Damped) :
    ∃ top, Spreading w [] top w.start := by
  obtain ⟨top, htop⟩ := Finset.exists_le (w.seeds.rows.map Prod.snd).toFinset
  have hrows : ∀ r ∈ w.seeds.rows, r.2 ≤ top := fun r hr =>
    htop r.2 (List.mem_toFinset.mpr (List.mem_map_of_mem hr))
  obtain ⟨hentering, -, hcounted⟩ := foldl_grown (I := Entering w top)
    (P := fun (r : φ × K) x => ∀ v ∈ w.nodesOf r.1, Counted w [] x v r.2 none)
    (fun r x x' hgrown h v hv => (h v hv).grown hgrown)
    (fun r hr x hx => foldl_grown (I := Entering w top) (P := fun v x => Counted w [] x v r.2 none)
      (fun v x x' hgrown h => h.grown hgrown)
      (fun v hv x hx => hx.seedNode hw (Dict.get?_eq_some_iff.mpr hr) hv (hrows r hr)) hx)
    (entering_empty w top)
  refine ⟨top, hentering.holding, fun f score hf v hv => ?_, fun e he => absurd he List.not_mem_nil⟩
  exact hcounted (f, score) (Dict.get?_eq_some_iff.mp hf) v hv

/-! ### The end -/

/-- What the loop has left: the heap, and the hops of the nodes that have not
gone on. -/
def Network.work (w : Network α φ K) (nodes : Finset α) (x : Spread α φ K) : Nat :=
  x.frontier.length + ∑ v ∈ nodes with v ∉ x.expanded, (w.next v).length

theorem offer_length (x : Spread α φ K) (owner : α → Option φ) (score : K) (depth : Nat)
    (n : α × K) : (x.offer owner score depth n).frontier.length ≤ x.frontier.length + 1 ∧
      (x.offer owner score depth n).expanded = x.expanded := by
  rw [Spread.offer]
  split
  · exact ⟨Nat.le_succ _, rfl⟩
  · split
    · exact ⟨Nat.le_succ _, rfl⟩
    · exact ⟨length_push.le, rfl⟩

theorem offers_length (x : Spread α φ K) (owner : α → Option φ) (score : K) (depth : Nat)
    (ns : List (α × K)) :
    (ns.foldl (Spread.offer owner score depth) x).frontier.length ≤
        x.frontier.length + ns.length ∧
      (ns.foldl (Spread.offer owner score depth) x).expanded = x.expanded := by
  induction ns generalizing x with
  | nil => exact ⟨le_refl _, rfl⟩
  | cons n ns ih =>
    obtain ⟨hlength, hexpanded⟩ := offer_length x owner score depth n
    obtain ⟨hlength', hexpanded'⟩ := ih (x.offer owner score depth n)
    rw [List.foldl_cons, List.length_cons]
    exact ⟨by omega, hexpanded'.trans hexpanded⟩

/-- Every turn leaves less: an entry is popped, and the hops of a node are
offered once. -/
theorem work_turn {nodes : Finset α} (hnodes : ∀ v, w.next v ≠ [] → v ∈ nodes) {e : Entry α K}
    {frontier : List (Entry α K)} (hfrontier : x.frontier = e :: frontier) :
    w.work nodes (w.turn x e frontier) < w.work nodes x := by
  rw [Network.turn, Network.work, Network.work, hfrontier, List.length_cons]
  split
  · exact Nat.add_lt_add_right (Nat.lt_succ_self _) _
  · rename_i hgoes
    obtain ⟨hlength, hexpanded⟩ := offers_length
      { x with frontier := frontier, expanded := e.node :: x.expanded } w.owner e.score e.depth
      (w.next e.node)
    have hrest : (w.next e.node).length +
        ∑ v ∈ nodes with v ∉ e.node :: x.expanded, (w.next v).length ≤
          ∑ v ∈ nodes with v ∉ x.expanded, (w.next v).length := by
      by_cases hempty : w.next e.node = []
      · rw [hempty, List.length_nil, Nat.zero_add]
        refine Finset.sum_le_sum_of_subset fun v hv => ?_
        rw [Finset.mem_filter, List.mem_cons, not_or] at hv
        exact Finset.mem_filter.mpr ⟨hv.1, hv.2.2⟩
      · have hmem : e.node ∈ nodes.filter (· ∉ x.expanded) :=
          Finset.mem_filter.mpr ⟨hnodes e.node hempty, fun h => hgoes (.inl h)⟩
        have herase : (nodes.filter fun v => v ∉ e.node :: x.expanded) =
            (nodes.filter (· ∉ x.expanded)).erase e.node := by
          ext v
          rw [Finset.mem_filter, Finset.mem_erase, Finset.mem_filter, List.mem_cons, not_or,
            and_left_comm]
        rw [herase, Finset.add_sum_erase _ (fun v => (w.next v).length) hmem]
    rw [hexpanded]
    dsimp only at hlength ⊢
    omega

/-- The loop ends, and nothing is left in the heap. -/
theorem spreadFrom_spreads [IsOrderedRing K] (hw : w.Damped) {nodes : Finset α}
    (hnodes : ∀ v, w.next v ≠ [] → v ∈ nodes) (turns : Nat) (h : Spreading w settled top x)
    (hturns : w.work nodes x < turns) :
    ∃ settled' top' x', w.spreadFrom turns x = some x'.merged ∧ x'.frontier = [] ∧
      Spreading w settled' top' x' := by
  induction turns generalizing settled top x with
  | zero => omega
  | succ turns ih =>
    rw [Network.spreadFrom]
    split
    · rename_i hempty
      exact ⟨settled, top, x, rfl, hempty, h⟩
    · rename_i e frontier hfrontier
      obtain ⟨settled', top', hturn⟩ := h.turn hw hfrontier
      have hwork := work_turn hnodes hfrontier
      exact ih hturn (by omega)

omit [LinearOrder α] in
/-- No walk carries more than a seed gives it. -/
theorem Carried.le_of_seeds [IsOrderedRing K] {d : Nat} (h : Carried w d p v) (hw : w.Damped)
    (hseeds : ∀ f score, w.seeds.get? f = some score → score ≤ top) : 0 ≤ p ∧ p ≤ top := by
  induction h with
  | @seed f score v hf _ => exact ⟨(hw.seed f score hf).le, hseeds f score hf⟩
  | @hop d p c a b _ hn ih =>
    obtain ⟨hc, hc'⟩ := hw.weight a (b, c) hn
    exact ⟨mul_nonneg ih.1 hc, (mul_le_of_le_one_right ih.1 hc').trans ih.2⟩

omit [LinearOrder α] in
/-- Nothing comes late on a walk of one hop. -/
theorem Carried.open_of_le_one {d : Nat} (h : Carried w d p v) (hd : d ≤ 1) :
    ∃ prev, Open w d prev p v := by
  cases h with
  | seed hf hv => exact ⟨none, .seed hf hv⟩
  | @hop d p c a b h hn =>
    cases h with
    | seed hf hv => exact ⟨_, .hop (.seed hf hv) not_late_none hn⟩
    | hop => omega

/-- At the end an open walk within the limit has counted at its node: by
induction on the walk, whose nodes have gone on with at least its score. -/
theorem Spreading.counted_of_open [IsOrderedRing K] (hw : w.Damped) (h : Spreading w settled top x)
    (hend : x.frontier = []) {d : Nat} (hopen : Open w d prev p v) (hd : d ≤ w.limit)
    (hp : 0 < p) : Counted w settled x v p prev := by
  induction hopen with
  | seed hf hv => exact h.seeded _ _ hf _ hv
  | @hop d prev p c a b _ hlate hn ih =>
    obtain ⟨hc, -⟩ := hw.weight a (b, c) hn
    have hpos : 0 < p := lt_of_not_ge fun hle =>
      absurd (mul_nonpos_of_nonpos_of_nonneg hle hc) hp.not_ge
    obtain ⟨-, hcovered⟩ := ih (by omega) hpos
    rw [hend] at hcovered
    rcases hcovered (by omega) with ⟨e, he, rfl, hle⟩ | ⟨e, he, -⟩ | hlate'
    · have hscore : p * c ≤ e.score * c := mul_le_mul_of_nonneg_right hle hc
      obtain ⟨⟨m, hm, hbm⟩, hcovered'⟩ := h.left e he (b, c) hn (hp.trans_le hscore)
      refine ⟨⟨m, hm, hscore.trans hbm⟩, fun hlimit => ?_⟩
      rcases hcovered' hlimit with ⟨e', he', hv, hle'⟩ | ⟨e', he', hv, hle', hd'⟩ | hlate'
      · exact .inl ⟨e', he', hv, hscore.trans hle'⟩
      · exact .inr (.inl ⟨e', he', hv, hscore.trans hle', hd'⟩)
      · exact .inr (.inr (hlate'.mono hscore hle))
    · exact absurd he List.not_mem_nil
    · exact absurd hlate' hlate

/-- What a run credits: nothing that no walk carries, at least the seeds, and
at least what the open walks carry. -/
structure Network.Credits (w : Network α φ K) (merged : Dict φ K) : Prop where
  sound : ∀ f m, merged.get? f = some m → w.seeds.get? f = some m ∨
    ∃ d v, d ≤ w.limit ∧ Carried w d m v ∧ w.owner v = some f
  seeds : ∀ f score, w.seeds.get? f = some score → ∃ m, merged.get? f = some m ∧ score ≤ m
  opened : ∀ f d prev p v, d ≤ w.limit → 0 < p → Open w d prev p v → w.owner v = some f →
    ∃ m, merged.get? f = some m ∧ p ≤ m

theorem Spreading.credits [IsOrderedRing K] (hw : w.Damped) (h : Spreading w settled top x)
    (hend : x.frontier = []) : w.Credits x.merged := by
  refine ⟨h.holding.sound, h.holding.seeds, fun f d prev p v hd hp hopen howner => ?_⟩
  obtain ⟨b, hb, hle⟩ := (h.counted_of_open hw hend hopen hd hp).kept
  obtain ⟨m, hm, hbm⟩ := h.holding.credited v b hb f howner
  exact ⟨m, hm, hle.trans hbm⟩

/-- More turns change nothing. -/
theorem spreadFrom_mono {turns turns' : Nat} {merged : Dict φ K} (hle : turns ≤ turns')
    (h : w.spreadFrom turns x = some merged) : w.spreadFrom turns' x = some merged := by
  induction turns generalizing turns' x with
  | zero => exact nomatch h
  | succ turns ih =>
    obtain ⟨turns', rfl⟩ : ∃ k, turns' = k + 1 := ⟨turns' - 1, by omega⟩
    rw [Network.spreadFrom] at h ⊢
    split at h
    · exact h
    · exact ih (by omega) h

/-- Where only finitely many nodes have hops, the loop ends. -/
theorem spread_credits [IsOrderedRing K] (hw : w.Damped) {nodes : Finset α}
    (hnodes : ∀ v, w.next v ≠ [] → v ∈ nodes) :
    ∃ enough merged, (∀ turns, enough ≤ turns → w.spread turns = some merged) ∧
      w.Credits merged := by
  obtain ⟨top, hstart⟩ := spreading_start hw
  obtain ⟨settled, top', x, hx, hend, hspreading⟩ :=
    spreadFrom_spreads hw hnodes (w.work nodes w.start + 1) hstart (Nat.lt_succ_self _)
  exact ⟨_, x.merged, fun turns hturns => spreadFrom_mono hturns hx, hspreading.credits hw hend⟩

end Spreading

end MarkSdk.Lib
