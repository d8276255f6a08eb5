import Mathlib.Data.Fintype.EquivFin
import MarkSdk.Blocks.Linear

/-!
What the head of a chain says about the blocks before it.

The content hash of a block covers its members, not the link to its
predecessor. Whoever writes the rows can therefore put another history under
the same head and link the head to it, and the chain still verifies
(`head_commits_iff`).
-/

namespace MarkSdk

open Lib

/-- The last sealed blocks have the same id and content hash. -/
def SameHead (agentId : String) (s s' : LocalStore) : Prop :=
  ∃ b b', (s.sealedChain agentId).getLast? = some b ∧ (s'.sealedChain agentId).getLast? = some b' ∧
    b.id = b'.id ∧ b.contentHash = b'.contentHash

/-- The sealed chains are the same, block by block. -/
def SameChain (agentId : String) (s s' : LocalStore) : Prop :=
  (s.sealedChain agentId).map (fun b => (b.id, b.contentHash)) =
    (s'.sealedChain agentId).map fun b => (b.id, b.contentHash)

/-- Every store that verifies and has the same head has the same chain. -/
def HeadCommits (py : Python) (h : Hashing) (agentId : String) (s : LocalStore) : Prop :=
  ∀ s', ChainVerifies py h agentId s' → SameHead agentId s s' → SameChain agentId s s'

section Forgery

variable {h : Hashing} {s : LocalStore} {agentId : String}

/-- A block without members, sealed before `head`. -/
def forgedBlock (h : Hashing) (id : String) (head : Block) : Block where
  id := id
  name := ""
  agentId := head.agentId
  status := .sealed
  contentHash := some (blockContentHash h [])
  prevBlockId := none
  prevBlockHash := none
  sealedAt := some (head.sealTime - 1)
  createdAt := head.createdAt
  memberHashes := []

/-- The head, linked to another predecessor. -/
def Block.relinked (head prev : Block) : Block :=
  { head with prevBlockId := some prev.id, prevBlockHash := prev.contentHash }

/-- The store with nothing but the forged block and the head in its table of
blocks. -/
def forgedStore (h : Hashing) (s : LocalStore) {id : String} {head : Block} (hid : id ≠ head.id) :
    LocalStore :=
  s.onGraph fun g => { g with
    blocks := ⟨[forgedBlock h id head, head.relinked (forgedBlock h id head)], by
      simpa [forgedBlock, Block.relinked] using hid⟩ }

/-- The ids of blocks that something refers to. -/
def LocalStore.usedBlockIds (s : LocalStore) : List String :=
  s.db.fragments.rows.filterMap Fragment.blockId ++
    (s.graph.edges.rows.filterMap Edge.blockId ++ s.graph.blockNodes.rows.map BlockNode.blockId)

theorem memberHashes_of_not_used {id : String} (hid : id ∉ s.usedBlockIds) :
    s.memberHashes h id = [] := by
  simp only [LocalStore.usedBlockIds, List.mem_append, not_or, List.mem_filterMap, List.mem_map,
    not_exists, not_and] at hid
  obtain ⟨hfragments, hedges, hnodes⟩ := hid
  have hf : s.fragmentsForBlock id = [] := by
    rw [LocalStore.fragmentsForBlock, List.filter_eq_nil_iff.mpr]
    · rfl
    · simpa using hfragments
  have hn : s.nodesInBlock id = [] := by
    rw [LocalStore.nodesInBlock, List.filter_eq_nil_iff.mpr]
    · rfl
    · simpa using hnodes
  have he : s.edgesInBlock id = [] := by
    rw [LocalStore.edgesInBlock, List.filter_eq_nil_iff.mpr]
    · rfl
    · simpa using hedges
  rw [LocalStore.memberHashes, hf, hn, he]
  rfl

theorem exists_fresh_id (used : List String) : ∃ id : String, id ∉ used := by
  have : Infinite String :=
    Infinite.of_injective (fun n : Nat => String.ofList (List.replicate n 'a')) fun m n hmn => by
      have hlength := congrArg String.length hmn
      simpa using hlength
  obtain ⟨id, hid⟩ := Infinite.exists_notMem_finset used.toFinset
  exact ⟨id, fun hmem => hid (List.mem_toFinset.mpr hmem)⟩

theorem mem_sealedChain {b : Block} :
    b ∈ s.sealedChain agentId ↔
      b ∈ s.graph.blocks.rows ∧ b.agentId = agentId ∧ b.sealedAt.isSome = true ∧
        (b.status = .sealed ∨ b.status = .quarantined) := by
  unfold LocalStore.sealedChain
  rw [(List.perm_insertionSort _ _).mem_iff, List.mem_filter]
  simp [and_assoc]

theorem sealedChain_forgedStore {id : String} {head : Block} (hid : id ≠ head.id)
    (hhead : head ∈ s.sealedChain agentId) :
    (forgedStore h s hid).sealedChain agentId =
      [forgedBlock h id head, head.relinked (forgedBlock h id head)] := by
  obtain ⟨-, hagent, hdated, hstatus⟩ := mem_sealedChain.mp hhead
  have hfilter : ([forgedBlock h id head, head.relinked (forgedBlock h id head)].filter fun b =>
      b.agentId = agentId && b.sealedAt.isSome &&
        (b.status = .sealed || b.status = .quarantined)) =
      [forgedBlock h id head, head.relinked (forgedBlock h id head)] := by
    refine List.filter_eq_self.mpr fun b hb => ?_
    rcases List.mem_pair.mp hb with rfl | rfl
    · simp [forgedBlock, hagent]
    · simpa [Block.relinked, hagent, hdated] using hstatus
  have hbefore : (forgedBlock h id head).sealedBefore (head.relinked (forgedBlock h id head)) := by
    refine .inl ?_
    show head.sealTime - 1 < head.sealTime
    omega
  unfold LocalStore.sealedChain
  rw [show (forgedStore h s hid).graph.blocks.rows =
    [forgedBlock h id head, head.relinked (forgedBlock h id head)] from rfl, hfilter]
  simp [hbefore]

theorem chainVerifies_forgedStore {py : Python} {id : String} {head : Block} (hid : id ≠ head.id)
    (hused : id ∉ s.usedBlockIds) (hhead : head ∈ s.sealedChain agentId)
    (hvalid : Verifies py h s head.id) : ChainVerifies py h agentId (forgedStore h s hid) := by
  rw [chainVerifies_iff, sealedChain_forgedStore hid hhead]
  have hforged : (forgedStore h s hid).getBlock id = some (forgedBlock h id head) :=
    Table.find?_eq_some_iff.mpr ⟨by simp [forgedStore], rfl⟩
  have hrelinked : (forgedStore h s hid).getBlock head.id =
      some (head.relinked (forgedBlock h id head)) :=
    Table.find?_eq_some_iff.mpr ⟨by simp [forgedStore], rfl⟩
  refine ⟨fun b hb => verifies_iff.mpr ?_, fun b hb => ?_⟩
  · rcases List.mem_pair.mp hb with rfl | rfl
    · refine ⟨_, hforged, ?_⟩
      -- the other tables are those of the store, where nothing has this id
      have hmembers : (forgedStore h s hid).memberHashes h id = [] := memberHashes_of_not_used hused
      show Block.Intact h _ ((forgedStore h s hid).memberHashes h id)
      rw [hmembers]
      exact ⟨rfl, rfl, rfl, rfl⟩
    · obtain ⟨block, hget, hintact⟩ := verifies_iff.mp hvalid
      have heq : block = head := by
        obtain ⟨hrow, hsame⟩ := Table.find?_eq_some_iff.mp hget
        exact s.graph.blocks.eq_of_key hrow (mem_sealedChain.mp hhead).1 hsame
      subst heq
      exact ⟨_, hrelinked, hintact.changed, hintact.missing, hintact.added, hintact.contentHash⟩
  · rcases List.mem_pair.mp hb with rfl | rfl
    · rfl
    · simp [brokenLink, Block.relinked, forgedBlock]

end Forgery

/-- The head commits to its history only where there is none. -/
theorem head_commits_iff (py : Python) (h : Hashing) (agentId : String) (s : LocalStore)
    (hvalid : ChainVerifies py h agentId s) :
    HeadCommits py h agentId s ↔ s.sealedChain agentId = [] := by
  constructor
  · intro hcommits
    by_contra hne
    obtain ⟨head, hlast⟩ : ∃ head, (s.sealedChain agentId).getLast? = some head :=
      ⟨_, List.getLast?_eq_some_getLast hne⟩
    have hhead : head ∈ s.sealedChain agentId := List.mem_of_getLast? hlast
    obtain ⟨id, hfresh⟩ :=
      exists_fresh_id (s.usedBlockIds ++ (s.sealedChain agentId).map Block.id)
    rw [List.mem_append, not_or] at hfresh
    have hid : id ≠ head.id := fun heq =>
      hfresh.2 (List.mem_map.mpr ⟨head, hhead, heq.symm⟩)
    have hchain : (forgedStore h s hid).sealedChain agentId = _ := sealedChain_forgedStore hid hhead
    have hsame := hcommits (forgedStore h s hid)
      (chainVerifies_forgedStore hid hfresh.1 hhead ((chainVerifies_iff.mp hvalid).1 head hhead))
      ⟨head, head.relinked (forgedBlock h id head), hlast, by rw [hchain]; rfl, rfl, rfl⟩
    -- the forged block is in one of the two chains only
    have hmem : (id, some (blockContentHash h [])) ∈
        (s.sealedChain agentId).map fun b => (b.id, b.contentHash) := by
      rw [hsame, hchain]
      exact List.mem_cons_self
    obtain ⟨b, hb, hpair⟩ := List.mem_map.mp hmem
    exact hfresh.2 (List.mem_map.mpr ⟨b, hb, congrArg Prod.fst hpair⟩)
  · rintro hnil s' - ⟨b, b', hlast, -⟩
    rw [hnil] at hlast
    cases hlast

def threeSealed : LocalStore :=
  run (ChainCall.step .basic .plain "agent")
    [.create "a" "first" 1 [], .sealBlock "a" 2, .create "b" "second" 3 [], .sealBlock "b" 4,
      .create "c" "third" 5 [], .sealBlock "c" 6] .empty

/-- The same store without the second block, the third one linked to the
first. -/
def secondRemoved : LocalStore :=
  threeSealed.onGraph fun g => { g with
    blocks := (g.blocks.delete fun b => b.id = "b").update (fun b => b.id = "c")
      (fun b => { b with prevBlockId := some "a" }) fun _ => rfl }

theorem threeSealed_commits_iff :
    HeadCommits .basic .plain "agent" threeSealed ↔ threeSealed.sealedChain "agent" = [] :=
  head_commits_iff .basic .plain "agent" threeSealed ⟨_, rfl, by decide⟩

/-- A block is removed from the middle of the chain. -/
theorem removal_undetected :
    ¬ ∀ (py : Python) (h : Hashing) (agentId : String) (s s' : LocalStore),
      Function.Injective h.sha256 → ChainVerifies py h agentId s → ChainVerifies py h agentId s' →
        SameHead agentId s s' → SameChain agentId s s' := by
  intro hcommits
  have hsame := hcommits .basic .plain "agent" threeSealed secondRemoved (fun _ _ h => h)
    ⟨_, rfl, by decide⟩ ⟨_, rfl, by decide⟩ ⟨_, _, rfl, rfl, by decide, by decide⟩
  exact absurd hsame (by
    unfold SameChain
    decide)

end MarkSdk
