import MarkSdk.Lib.BreadthFirst
import MarkSdk.Store.Graph

/-!
Links between blocks, and walks along them.

`traverse` walks the links breadth-first. Blocks that are missing or
quarantined are not entered, and every other block in reach is returned once,
the nearer ones first (`traverse_reaches`).
-/

namespace MarkSdk

open Lib

/-- A row of `block_links`. -/
structure BlockLink where
  id : String
  sourceBlockId : String
  targetBlockId : String
  relation : String
  weight : ℚ
  agentId : String
  createdAt : Int
  deriving DecidableEq, Repr

structure LinkedStore where
  store : LocalStore
  links : Table BlockLink.id

inductive LinkDirection : Type
  | forward | backward | both
  deriving DecidableEq, Repr

namespace LinkedStore

/-- `ORDER BY created_at` -/
def linksFromBlock (s : LinkedStore) (blockId : String) : List BlockLink :=
  (s.links.rows.filter fun l => l.sourceBlockId = blockId).insertionSort
    fun l l' => l.createdAt ≤ l'.createdAt

def linksToBlock (s : LinkedStore) (blockId : String) : List BlockLink :=
  (s.links.rows.filter fun l => l.targetBlockId = blockId).insertionSort
    fun l l' => l.createdAt ≤ l'.createdAt

def neighborIds (s : LinkedStore) (direction : LinkDirection) (blockId : String) : List String :=
  (if direction = .forward ∨ direction = .both then
      (s.linksFromBlock blockId).map BlockLink.targetBlockId else []) ++
    if direction = .backward ∨ direction = .both then
      (s.linksToBlock blockId).map BlockLink.sourceBlockId else []

/-- The block exists, and is not skipped as quarantined. -/
def entered (s : LinkedStore) (includeQuarantined : Bool) (blockId : String) : Bool :=
  (s.store.getBlock blockId).any fun b => b.status ≠ .quarantined || includeQuarantined

/-- `traverse`, with the turns its loop may take. Hops are never negative, so
a negative depth is no depth. -/
def traverse (s : LinkedStore) (blockId : String) (direction : LinkDirection) (depth : Int)
    (includeQuarantined : Bool) (turns : Nat) : Option (List Block) :=
  (search (s.neighborIds direction) (s.entered includeQuarantined) depth.toNat blockId turns).map
    fun found => found.filterMap fun e => s.store.getBlock e.1

/-- A walk along links of some hops, through blocks that are entered. -/
abbrev LinkWalk (s : LinkedStore) (direction : LinkDirection) (includeQuarantined : Bool)
    (start : String) (hops : Nat) (blockId : String) : Prop :=
  Walk (s.neighborIds direction) (s.entered includeQuarantined) start hops blockId

variable {s : LinkedStore} {direction : LinkDirection} {includeQuarantined : Bool}
  {start blockId : String} {hops : Nat}

theorem exists_block (h : s.entered includeQuarantined blockId = true) :
    ∃ b, s.store.getBlock blockId = some b ∧ b.id = blockId := by
  obtain ⟨b, hb, -⟩ := (Option.any_eq_true _ _).mp h
  exact ⟨b, hb, (Table.find?_eq_some_iff.mp hb).2⟩

/-- A walk to another block ends with a block that is entered. -/
theorem entered_of_walk (h : s.LinkWalk direction includeQuarantined start hops blockId)
    (hne : blockId ≠ start) : s.entered includeQuarantined blockId = true := by
  cases h with
  | start => exact absurd rfl hne
  | step _ _ henter => exact henter

theorem map_id_blocks {found : List (String × Nat)}
    (h : ∀ e ∈ found, s.entered includeQuarantined e.1 = true) :
    (found.filterMap fun e => s.store.getBlock e.1).map Block.id = found.map Prod.fst := by
  induction found with
  | nil => rfl
  | cons e found ih =>
    obtain ⟨he, hfound⟩ := List.forall_mem_cons.mp h
    obtain ⟨b, hb, hid⟩ := exists_block he
    rw [List.filterMap_cons_some (f := fun e : String × Nat => s.store.getBlock e.1) hb, List.map_cons, List.map_cons, ih hfound, hid]

/-- Whatever the links are, the walk ends, and it returns each block that is
entered and can be reached in at most `depth` links, without the start: once,
and in the order of their shortest distances. -/
theorem traverse_reaches (s : LinkedStore) (direction : LinkDirection) (includeQuarantined : Bool)
    (start : String) (depth : Int) :
    ∃ enough, ∀ turns, enough ≤ turns →
      ∃ blocks, s.traverse start direction depth includeQuarantined turns = some blocks ∧
        (blocks.map Block.id).Nodup ∧
        (∀ b, b ∈ blocks ↔ s.store.getBlock b.id = some b ∧ b.id ≠ start ∧
          ∃ hops : Nat, (hops : Int) ≤ depth ∧
            s.LinkWalk direction includeQuarantined start hops b.id) ∧
        blocks.Pairwise fun a b =>
          ∀ hops, s.LinkWalk direction includeQuarantined start hops b.id →
            ∃ hops', hops' ≤ hops ∧ s.LinkWalk direction includeQuarantined start hops' a.id := by
  refine ⟨s.store.graph.blocks.rows.length + 2, fun turns hturns => ?_⟩
  have hnodes : ∀ n, s.entered includeQuarantined n = true →
      n ∈ s.store.graph.blocks.rows.map Block.id := by
    intro n hn
    obtain ⟨b, hb, rfl⟩ := exists_block hn
    exact List.mem_map_of_mem (Table.find?_eq_some_iff.mp hb).1
  obtain ⟨found, hfound, hreached⟩ := search_reached (s.neighborIds direction)
    (s.entered includeQuarantined) depth.toNat start hnodes turns
    (by rw [List.length_map]; omega)
  have hentered : ∀ e ∈ found, s.entered includeQuarantined e.1 = true := by
    intro e he
    obtain ⟨hne, -, hwalk, -⟩ := (hreached.shortest e.1 e.2).mp he
    exact entered_of_walk hwalk hne
  have hids := map_id_blocks hentered
  refine ⟨found.filterMap fun e => s.store.getBlock e.1, ?_, ?_, fun b => ?_, ?_⟩
  · rw [traverse, hfound]
    rfl
  · rw [hids]
    exact hreached.nodup
  · rw [List.mem_filterMap]
    constructor
    · rintro ⟨⟨x, d⟩, he, hb⟩
      obtain ⟨hne, hd, hwalk, -⟩ := (hreached.shortest x d).mp he
      obtain rfl : b.id = x := (Table.find?_eq_some_iff.mp hb).2
      refine ⟨hb, hne, d, ?_, hwalk⟩
      cases hwalk with
      | start => exact absurd rfl hne
      | step => omega
    · rintro ⟨hb, hne, hops, hdepth, hwalk⟩
      -- the shortest walk is the one that was found
      have hexists : ∃ k, s.LinkWalk direction includeQuarantined start k b.id := ⟨hops, hwalk⟩
      classical
      have hmem : (b.id, Nat.find hexists) ∈ found := by
        refine (hreached.shortest _ _).mpr ⟨hne, ?_, Nat.find_spec hexists, fun d hd =>
          Nat.find_min' hexists hd⟩
        have hle := Nat.find_min' hexists hwalk
        omega
      exact ⟨_, hmem, hb⟩
  · rw [← List.pairwise_map (f := Block.id) (R := fun a b : String =>
      ∀ hops, s.LinkWalk direction includeQuarantined start hops b →
        ∃ hops', hops' ≤ hops ∧ s.LinkWalk direction includeQuarantined start hops' a), hids,
      List.pairwise_map]
    refine hreached.sorted.imp_of_mem fun {e e'} he he' hle hops hwalk => ?_
    obtain ⟨-, -, hwalk', -⟩ := (hreached.shortest e.1 e.2).mp he
    obtain ⟨-, -, -, hmin⟩ := (hreached.shortest e'.1 e'.2).mp he'
    exact ⟨e.2, hle.trans (hmin hops hwalk), hwalk'⟩

end LinkedStore

end MarkSdk
