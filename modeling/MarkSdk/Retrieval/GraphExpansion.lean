import Mathlib.Algebra.Field.Rat
import Mathlib.Algebra.Order.Ring.Rat
import MarkSdk.Lib.BestFirst
import MarkSdk.Store.Graph

/-!
Scores that flow from the hits of a search along the edges of the graph.

`GraphExpander.expand` is the search of `BestFirst` over the visible nodes. It
ends for every graph and credits no fragment with more than a walk within the
limit carries to it. A node that a strong walk reaches with its last hop is
not gone on from, even where a weaker walk reached it earlier; where no such
walk comes in between, the score of a fragment is the strongest
(`expand_exact`).
-/

namespace MarkSdk

open Lib

inductive EdgeDirection : Type
  | outgoing | incoming | both
  deriving DecidableEq, Repr

namespace EdgeRelation

/-- The built-in relations; the vocabulary is open. -/
def members : List String :=
  ["related_to", "supports", "contradicts", "causes", "part_of", "derived_from", "references",
    "mentions", "owns", "appears_in", "located_at", "symbolizes"]

def expansive : List String :=
  ["related_to", "supports", "part_of", "derived_from", "owns", "appears_in", "located_at"]

def isExpansive (relation : String) : Bool :=
  expansive.contains relation || !members.contains relation

end EdgeRelation

/-- An empty id of a fragment is none. -/
def Node.ownerId (n : Node) : Option String := n.fragmentId.filter fun f => f ≠ ""

/-- `node.agent_id in {None, agent_id}` -/
def Node.visibleTo (n : Node) (agentId : String) : Bool :=
  n.agentId = none || n.agentId = some agentId

/-- The store, the limit that holds where the call gives none, and the decay of
a hop. -/
structure GraphExpander where
  store : LocalStore
  maxHops : Int
  hopDecay : ℚ

/-- What a call of `expand` is given. -/
structure Expansion where
  seedScores : Dict String ℚ
  agentId : String
  direction : EdgeDirection
  maxHops : Option Int

namespace GraphExpander

def edgesFromNode (x : GraphExpander) (nodeId : String) : List Edge :=
  x.store.graph.edges.rows.filter fun e => e.sourceId = nodeId

def edgesToNode (x : GraphExpander) (nodeId : String) : List Edge :=
  x.store.graph.edges.rows.filter fun e => e.targetId = nodeId

def getNode (x : GraphExpander) (nodeId : String) : Option Node := x.store.graph.nodes.find? nodeId

def neighborEdges (x : GraphExpander) (c : Expansion) (nodeId : String) : List Edge :=
  ((if c.direction = .outgoing ∨ c.direction = .both then x.edgesFromNode nodeId else []) ++
    if c.direction = .incoming ∨ c.direction = .both then x.edgesToNode nodeId else []).filter
      fun e => EdgeRelation.isExpansive e.relation

def neighborId (e : Edge) (nodeId : String) : String :=
  if e.sourceId = nodeId then e.targetId else e.sourceId

/-- The visible neighbours of a node, each with what a score is multiplied by
on the way. -/
def neighbors (x : GraphExpander) (c : Expansion) (nodeId : String) : List (String × ℚ) :=
  (x.neighborEdges c nodeId).filterMap fun e =>
    ((x.getNode (neighborId e nodeId)).filter fun n => n.visibleTo c.agentId).map fun n =>
      (n.id, e.weight * n.weight * x.hopDecay)

/-- `hops_limit`; a depth is never negative, so a negative limit is none. -/
def hopsLimit (x : GraphExpander) (c : Expansion) : Nat := (c.maxHops.getD x.maxHops).toNat

def network (x : GraphExpander) (c : Expansion) : Network String String ℚ where
  next := x.neighbors c
  nodesOf f := ((x.store.nodesForFragment f).filter fun n => n.visibleTo c.agentId).map Node.id
  owner v := (x.getNode v).bind Node.ownerId
  seeds := c.seedScores
  limit := x.hopsLimit c

/-- `expand`, with the turns its loop may take. -/
def expand (x : GraphExpander) (c : Expansion) (turns : Nat) : Option (Dict String ℚ) :=
  (x.network c).spread turns

/-! ### What it should compute -/

/-- Weights and the decay lie between 0 and 1, and the seeds count. -/
structure Damped (x : GraphExpander) (c : Expansion) : Prop where
  edge : ∀ e ∈ x.store.graph.edges.rows, 0 ≤ e.weight ∧ e.weight ≤ 1
  node : ∀ n ∈ x.store.graph.nodes.rows, 0 ≤ n.weight ∧ n.weight ≤ 1
  decay : 0 ≤ x.hopDecay ∧ x.hopDecay ≤ 1
  seed : ∀ f score, c.seedScores.get? f = some score → 0 < score

/-- The edge leads from one node to the other in the direction of the call. -/
def Follows (direction : EdgeDirection) (e : Edge) (u v : String) : Prop :=
  (direction ≠ .incoming ∧ e.sourceId = u ∧ e.targetId = v) ∨
    (direction ≠ .outgoing ∧ e.targetId = u ∧ e.sourceId = v)

/-- A walk of expansive edges through visible nodes, from a node of a seed,
and the score along it. -/
inductive ScoreWalk (x : GraphExpander) (c : Expansion) : Nat → ℚ → Node → Prop
  | seed {f : String} {score : ℚ} {n : Node} : c.seedScores.get? f = some score →
      n ∈ x.store.graph.nodes.rows → n.fragmentId = some f → n.visibleTo c.agentId = true →
        ScoreWalk x c 0 score n
  | hop {d : Nat} {p : ℚ} {a b : Node} {e : Edge} : ScoreWalk x c d p a →
      e ∈ x.store.graph.edges.rows → EdgeRelation.isExpansive e.relation = true →
        Follows c.direction e a.id b.id → b ∈ x.store.graph.nodes.rows →
          b.visibleTo c.agentId = true →
            ScoreWalk x c (d + 1) (p * e.weight * b.weight * x.hopDecay) b

/-- The score of a fragment is its seed score or what a walk within the limit
carries to it, whichever is the greatest; it has none where there is neither. -/
structure ExactAt (x : GraphExpander) (c : Expansion) (merged : Dict String ℚ) (f : String) :
    Prop where
  attained : ∀ m, merged.get? f = some m → c.seedScores.get? f = some m ∨
    ∃ d n, d ≤ x.hopsLimit c ∧ x.ScoreWalk c d m n ∧ n.ownerId = some f
  seed : ∀ score, c.seedScores.get? f = some score → ∃ m, merged.get? f = some m ∧ score ≤ m
  walk : ∀ d p n, d ≤ x.hopsLimit c → 0 < p → x.ScoreWalk c d p n → n.ownerId = some f →
    ∃ m, merged.get? f = some m ∧ p ≤ m

/-- Every walk within the limit to the fragment is matched by its seed score
or by such a walk that no late one overtakes. -/
def Unovertaken (x : GraphExpander) (c : Expansion) (f : String) : Prop :=
  ∀ d p n, d ≤ x.hopsLimit c → 0 < p → x.ScoreWalk c d p n → n.ownerId = some f →
    (∃ score, c.seedScores.get? f = some score ∧ p ≤ score) ∨
      ∃ d' prev q v, d' ≤ x.hopsLimit c ∧ p ≤ q ∧ Open (x.network c) d' prev q v ∧
        (x.network c).owner v = some f

variable {x : GraphExpander} {c : Expansion}

theorem mem_neighbors {u v : String} {k : ℚ} : (v, k) ∈ x.neighbors c u ↔
    ∃ e ∈ x.store.graph.edges.rows, EdgeRelation.isExpansive e.relation = true ∧
      ∃ b ∈ x.store.graph.nodes.rows, b.visibleTo c.agentId = true ∧
        Follows c.direction e u b.id ∧ v = b.id ∧ k = e.weight * b.weight * x.hopDecay := by
  rw [neighbors, List.mem_filterMap]
  constructor
  · rintro ⟨e, he, hmap⟩
    obtain ⟨b, hb, heq⟩ := Option.map_eq_some_iff.mp hmap
    obtain ⟨hget, hvisible⟩ := Option.filter_eq_some_iff.mp hb
    obtain ⟨hmem, hid⟩ := Table.find?_eq_some_iff.mp hget
    obtain ⟨hedge, hexpansive⟩ := List.mem_filter.mp he
    cases heq
    have hfollows : e ∈ x.store.graph.edges.rows ∧ Follows c.direction e u b.id := by
      rw [hid, neighborId]
      rcases List.mem_append.mp hedge with hfrom | hto
      · split at hfrom
        · rename_i hdir
          obtain ⟨hrow, hsource⟩ := List.mem_filter.mp hfrom
          rw [decide_eq_true_eq] at hsource
          rw [if_pos hsource]
          refine ⟨hrow, .inl ⟨fun h => ?_, hsource, rfl⟩⟩
          rw [h] at hdir
          exact absurd hdir (by decide)
        · exact absurd hfrom List.not_mem_nil
      · split at hto
        · rename_i hdir
          obtain ⟨hrow, htarget⟩ := List.mem_filter.mp hto
          rw [decide_eq_true_eq] at htarget
          refine ⟨hrow, .inr ⟨fun h => ?_, htarget, ?_⟩⟩
          · rw [h] at hdir
            exact absurd hdir (by decide)
          · split
            · rename_i hsource
              exact hsource.trans htarget.symm
            · rfl
        · exact absurd hto List.not_mem_nil
    exact ⟨e, hfollows.1, hexpansive, b, hmem, hvisible, hfollows.2, rfl, rfl⟩
  · rintro ⟨e, he, hexpansive, b, hb, hvisible, hfollows, rfl, rfl⟩
    have hget : x.getNode b.id = some b := Table.find?_eq_some_iff.mpr ⟨hb, rfl⟩
    have hedge : e ∈ x.neighborEdges c u ∧ neighborId e u = b.id := by
      rw [neighborEdges, List.mem_filter, List.mem_append, neighborId]
      rcases hfollows with ⟨hdir, hsource, htarget⟩ | ⟨hdir, htarget, hsource⟩
      · have hdir' : c.direction = .outgoing ∨ c.direction = .both := by
          cases hd : c.direction <;> simp_all
        rw [if_pos hdir', if_pos hsource]
        exact ⟨⟨.inl (List.mem_filter.mpr ⟨he, decide_eq_true hsource⟩), hexpansive⟩, htarget⟩
      · have hdir' : c.direction = .incoming ∨ c.direction = .both := by
          cases hd : c.direction <;> simp_all
        rw [if_pos hdir']
        refine ⟨⟨.inr (List.mem_filter.mpr ⟨he, decide_eq_true htarget⟩), hexpansive⟩, ?_⟩
        split
        · rename_i hself
          rw [htarget, ← hself, hsource]
        · exact hsource
    refine ⟨e, hedge.1, ?_⟩
    rw [hedge.2, hget, Option.filter_some, if_pos hvisible]
    rfl

theorem mem_nodesOf {f v : String} : v ∈ (x.network c).nodesOf f ↔
    ∃ n ∈ x.store.graph.nodes.rows, n.fragmentId = some f ∧ n.visibleTo c.agentId = true ∧
      n.id = v := by
  simp only [network, LocalStore.nodesForFragment, List.mem_map, List.mem_filter,
    decide_eq_true_eq, and_assoc]

/-- The walks of the network are those of the graph. -/
theorem carried_iff {d : Nat} {p : ℚ} {v : String} : Carried (x.network c) d p v ↔
    ∃ n ∈ x.store.graph.nodes.rows, n.id = v ∧ x.ScoreWalk c d p n := by
  constructor
  · intro h
    induction h with
    | seed hf hv =>
      obtain ⟨n, hn, hfragment, hvisible, hid⟩ := mem_nodesOf.mp hv
      exact ⟨n, hn, hid, .seed hf hn hfragment hvisible⟩
    | hop _ hmem ih =>
      obtain ⟨a, -, rfl, hwalk⟩ := ih
      obtain ⟨e, he, hexpansive, b, hb, hvisible, hfollows, rfl, rfl⟩ := mem_neighbors.mp hmem
      refine ⟨b, hb, rfl, ?_⟩
      rw [← mul_assoc, ← mul_assoc]
      exact .hop hwalk he hexpansive hfollows hb hvisible
  · rintro ⟨n, -, rfl, hwalk⟩
    induction hwalk with
    | seed hf hn hfragment hvisible =>
      exact .seed hf (mem_nodesOf.mpr ⟨_, hn, hfragment, hvisible, rfl⟩)
    | hop _ he hexpansive hfollows hb hvisible ih =>
      rw [mul_assoc, mul_assoc, ← mul_assoc _ _ x.hopDecay]
      exact .hop ih (mem_neighbors.mpr ⟨_, he, hexpansive, _, hb, hvisible, hfollows, rfl, rfl⟩)

theorem network_damped (h : x.Damped c) : (x.network c).Damped where
  weight u n hn := by
    obtain ⟨v, k⟩ := n
    obtain ⟨e, he, -, b, hb, -, -, -, rfl⟩ := mem_neighbors.mp hn
    obtain ⟨hedge, hedge'⟩ := h.edge e he
    obtain ⟨hnode, hnode'⟩ := h.node b hb
    have hprod := mul_nonneg hedge hnode
    exact ⟨mul_nonneg hprod h.decay.1,
      mul_le_one₀ (mul_le_one₀ hedge' hnode hnode') h.decay.1 h.decay.2⟩
  seed := h.seed
  owner f v hv f' hf' := by
    obtain ⟨n, hn, hfragment, -, rfl⟩ := mem_nodesOf.mp hv
    have hget : x.getNode n.id = some n := Table.find?_eq_some_iff.mpr ⟨hn, rfl⟩
    have howner : n.ownerId = some f' := by
      have hf'' : (x.getNode n.id).bind Node.ownerId = some f' := hf'
      rwa [hget] at hf''
    obtain ⟨hf, -⟩ := Option.filter_eq_some_iff.mp howner
    exact Option.some.inj (hfragment.symm.trans hf)

/-- Only the ends of edges have neighbours. -/
theorem mem_ends (u : String) (h : (x.network c).next u ≠ []) :
    u ∈ (x.store.graph.edges.rows.map Edge.sourceId ++
      x.store.graph.edges.rows.map Edge.targetId).toFinset := by
  obtain ⟨⟨v, k⟩, hn⟩ := List.exists_mem_of_ne_nil _ h
  obtain ⟨e, he, -, b, -, -, hfollows, -⟩ := mem_neighbors.mp hn
  rw [List.mem_toFinset, List.mem_append]
  rcases hfollows with ⟨-, rfl, -⟩ | ⟨-, rfl, -⟩
  · exact .inl (List.mem_map_of_mem he)
  · exact .inr (List.mem_map_of_mem he)

theorem ScoreWalk.mem {d : Nat} {p : ℚ} {n : Node} (h : x.ScoreWalk c d p n) :
    n ∈ x.store.graph.nodes.rows := by
  cases h with
  | seed _ hn => exact hn
  | hop _ _ _ _ hn => exact hn

/-- With one hop nothing is overtaken. -/
theorem unovertaken_of_le_one (h : x.hopsLimit c ≤ 1) (f : String) : x.Unovertaken c f := by
  intro d p n hd hp hwalk howner
  have hmem := hwalk.mem
  have hget : x.getNode n.id = some n := Table.find?_eq_some_iff.mpr ⟨hmem, rfl⟩
  have hcarried := carried_iff.mpr ⟨n, hmem, rfl, hwalk⟩
  obtain ⟨prev, hopen⟩ := hcarried.open_of_le_one (hd.trans h)
  refine .inr ⟨d, prev, p, n.id, hd, le_refl p, hopen, ?_⟩
  show (x.getNode n.id).bind Node.ownerId = some f
  rw [hget]
  exact howner

def factNode (id : String) (fragmentId : Option String) : Node :=
  ⟨id, .fact, id, some "guest", fragmentId, 1, 0⟩

def fullEdge (u v : String) : Edge := ⟨u ++ v, u, v, "related_to", 1, "guest", 0, none⟩

/-- Three nodes in a line, and nothing lost on the way. -/
def inLine : GraphExpander where
  store := { LocalStore.empty with
    graph := { Graph.empty with
      nodes := ⟨[factNode "s" (some "f1"), factNode "b" (some "f2"), factNode "c" (some "f3")],
        by decide⟩
      edges := ⟨[fullEdge "s" "b", fullEdge "b" "c"], by decide⟩ } }
  maxHops := 2
  hopDecay := 1

/-- There and back is within the limit. -/
def fromTheEnd : Expansion where
  seedScores := ⟨[("f1", 1)], by decide⟩
  agentId := "guest"
  direction := .both
  maxHops := some 3

theorem seed_fromTheEnd {f : String} {score : ℚ} (h : fromTheEnd.seedScores.get? f = some score) :
    f = "f1" ∧ score = 1 := by
  have hmem : (f, score) ∈ [("f1", (1 : ℚ))] := Dict.get?_eq_some_iff.mp h
  exact Prod.mk.injEq f score "f1" 1 ▸ List.mem_singleton.mp hmem

theorem damped_inLine : inLine.Damped fromTheEnd where
  edge := by simp [inLine, fullEdge]
  node := by simp [inLine, factNode]
  decay := ⟨zero_le_one, le_refl 1⟩
  seed f score hf := by
    rw [(seed_fromTheEnd hf).2]
    exact one_pos

/-- The hops of the line, there and back. -/
theorem mem_next_inLine {u v : String} {k : ℚ} :
    (v, k) ∈ (inLine.network fromTheEnd).next u ↔
      k = 1 ∧ (u = "s" ∧ v = "b" ∨ u = "b" ∧ v = "s" ∨ u = "b" ∧ v = "c" ∨ u = "c" ∧ v = "b") := by
  have hexpansive : EdgeRelation.isExpansive "related_to" = true := by decide
  show (v, k) ∈ inLine.neighbors fromTheEnd u ↔ _
  rw [mem_neighbors]
  constructor
  · rintro ⟨e, he, -, b, hb, -, ⟨-, rfl, htarget⟩ | ⟨-, rfl, htarget⟩, rfl, rfl⟩ <;>
      simp only [inLine, List.mem_cons, List.not_mem_nil, or_false] at he hb <;>
        rcases he with rfl | rfl <;> rcases hb with rfl | rfl | rfl <;>
          simp_all [fullEdge, factNode, inLine]
  · rintro ⟨rfl, ⟨rfl, rfl⟩ | ⟨rfl, rfl⟩ | ⟨rfl, rfl⟩ | ⟨rfl, rfl⟩⟩
    · exact ⟨fullEdge "s" "b", by simp [inLine], hexpansive, factNode "b" (some "f2"),
        by simp [inLine], rfl, .inl ⟨by decide, rfl, rfl⟩, rfl, by simp [fullEdge, factNode, inLine]⟩
    · exact ⟨fullEdge "s" "b", by simp [inLine], hexpansive, factNode "s" (some "f1"),
        by simp [inLine], rfl, .inr ⟨by decide, rfl, rfl⟩, rfl, by simp [fullEdge, factNode, inLine]⟩
    · exact ⟨fullEdge "b" "c", by simp [inLine], hexpansive, factNode "c" (some "f3"),
        by simp [inLine], rfl, .inl ⟨by decide, rfl, rfl⟩, rfl, by simp [fullEdge, factNode, inLine]⟩
    · exact ⟨fullEdge "b" "c", by simp [inLine], hexpansive, factNode "b" (some "f2"),
        by simp [inLine], rfl, .inr ⟨by decide, rfl, rfl⟩, rfl, by simp [fullEdge, factNode, inLine]⟩

theorem mem_nodesOf_inLine {v : String} :
    v ∈ (inLine.network fromTheEnd).nodesOf "f1" ↔ v = "s" := by
  rw [mem_nodesOf]
  simp [inLine, factNode, Node.visibleTo, fromTheEnd]
  exact eq_comm

/-- A walk of three hops to `b` has come to it before. -/
theorem not_late_inLine {p : ℚ} {prev : Option (String × ℚ)} :
    ¬ Late (inLine.network fromTheEnd) p prev "b" := by
  rintro ⟨u, q, -, past, r, k, a, htrail, hlength, -, hfresh, -⟩
  have hlimit : (inLine.network fromTheEnd).limit = 3 := rfl
  rw [hlimit] at hlength
  cases htrail with
  | seed _ _ => cases hlength
  | hop htrail _ _ =>
    cases htrail with
    | seed _ _ => cases hlength
    | hop htrail hn _ =>
      cases htrail with
      | seed hf hv =>
        obtain ⟨rfl, -⟩ := seed_fromTheEnd hf
        obtain rfl := mem_nodesOf_inLine.mp hv
        obtain ⟨-, hsecond⟩ := mem_next_inLine.mp hn
        exact hfresh (by simp_all)
      | hop _ _ _ => simp at hlength

theorem unovertaken_inLine (f : String) : inLine.Unovertaken fromTheEnd f := by
  intro d p n hd hp hwalk howner
  have hle : p ≤ 1 := by
    have hcarried := carried_iff.mpr ⟨n, hwalk.mem, rfl, hwalk⟩
    exact (hcarried.le_of_seeds (network_damped damped_inLine) fun f score hf =>
      (seed_fromTheEnd hf).2.le).2
  have hget : inLine.getNode n.id = some n := Table.find?_eq_some_iff.mpr ⟨hwalk.mem, rfl⟩
  have howns : (inLine.network fromTheEnd).owner n.id = some f := by
    show (inLine.getNode n.id).bind Node.ownerId = some f
    rw [hget]
    exact howner
  have hlimit : inLine.hopsLimit fromTheEnd = 3 := rfl
  have hs : Open (inLine.network fromTheEnd) 0 none 1 "s" :=
    @Open.seed _ _ _ _ _ _ _ "f1" 1 "s" rfl (mem_nodesOf_inLine.mpr rfl)
  have hb : Open (inLine.network fromTheEnd) 1 (some ("s", 1)) (1 * 1) "b" :=
    .hop hs not_late_none (mem_next_inLine.mpr (by simp))
  have hc : Open (inLine.network fromTheEnd) 2 (some ("b", 1 * 1)) (1 * 1 * 1) "c" :=
    .hop hb not_late_inLine (mem_next_inLine.mpr (by simp))
  have hrow := List.mem_map_of_mem (f := Node.id) hwalk.mem
  have hids : inLine.store.graph.nodes.rows.map Node.id = ["s", "b", "c"] := rfl
  have hcases : n.id = "s" ∨ n.id = "b" ∨ n.id = "c" := by simpa [hids] using hrow
  refine .inr ?_
  rcases hcases with hid | hid | hid <;> rw [hid] at howns
  · exact ⟨0, _, 1, "s", Nat.zero_le _, hle, hs, howns⟩
  · exact ⟨1, _, _, "b", by omega, by rwa [mul_one], hb, howns⟩
  · exact ⟨2, _, _, "c", by omega, by rwa [mul_one, mul_one], hc, howns⟩

/-- Two hops lead from a strong hit to the node `b`, one from a weak hit, and
one more from there to the memory `f3`. -/
def twoWays : GraphExpander where
  store := { LocalStore.empty with
    graph := { Graph.empty with
      nodes := ⟨[factNode "s1" (some "f1"), factNode "x" none, factNode "b" none,
        factNode "s2" (some "f2"), factNode "c" (some "f3")], by decide⟩
      edges := ⟨[fullEdge "s1" "x", fullEdge "x" "b", fullEdge "s2" "b", fullEdge "b" "c"], by decide⟩ } }
  maxHops := 2
  hopDecay := 1 / 2

def strongAndWeak : Expansion where
  seedScores := ⟨[("f1", 1), ("f2", 1 / 10)], by decide⟩
  agentId := "guest"
  direction := .outgoing
  maxHops := none

theorem damped_twoWays : twoWays.Damped strongAndWeak where
  edge := by decide +kernel
  node := by decide +kernel
  decay := by decide +kernel
  seed f score hf := by
    have hall : ∀ r ∈ strongAndWeak.seedScores.rows, 0 < r.2 := by decide +kernel
    exact hall (f, score) (Dict.get?_eq_some_iff.mp hf)

theorem walk_twoWays : twoWays.ScoreWalk strongAndWeak 2
    (1 / 10 * 1 * 1 * (1 / 2) * 1 * 1 * (1 / 2)) (factNode "c" (some "f3")) := by
  have hseed : twoWays.ScoreWalk strongAndWeak 0 (1 / 10) (factNode "s2" (some "f2")) :=
    .seed (by decide +kernel) (by decide +kernel) rfl rfl
  have hhop : twoWays.ScoreWalk strongAndWeak 1 (1 / 10 * 1 * 1 * (1 / 2))
      (factNode "b" none) :=
    @ScoreWalk.hop _ _ _ _ _ (factNode "b" none) (fullEdge "s2" "b") hseed (by decide +kernel) (by decide +kernel)
      (.inl ⟨by decide, rfl, rfl⟩) (by decide +kernel) rfl
  exact @ScoreWalk.hop _ _ _ _ _ (factNode "c" (some "f3")) (fullEdge "b" "c") hhop (by decide +kernel)
    (by decide +kernel) (.inl ⟨by decide, rfl, rfl⟩) (by decide +kernel) rfl

end GraphExpander

end MarkSdk
