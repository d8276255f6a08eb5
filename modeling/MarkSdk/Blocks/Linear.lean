import MarkSdk.Blocks.Chain
import MarkSdk.Lib.Linked
import MarkSdk.Lib.Runs

/-!
The sealed chain of an agent as one linear list.

A new block is linked to the latest block whose status is SEALED, while the
chain also holds the sealed blocks that are in quarantine. The chain stays
one linear list exactly as long as no block is sealed while the last block of
the chain is in quarantine (`chain_linear_iff`).
-/

namespace MarkSdk

open Lib

/-- What a block says about its predecessor. -/
def Block.linkIn (b : Block) : Option String × Option String := (b.prevBlockId, b.prevBlockHash)

/-- What the successor of a block should say about it. -/
def Block.linkOut (b : Block) : Option String × Option String := (some b.id, b.contentHash)

/-- Each block is linked to the one sealed before it, the first one to none,
and no two blocks to the same. -/
structure LinearChain (chain : List Block) : Prop where
  links : Linked Block.linkOut Block.linkIn (none, none) chain
  unshared : (chain.map Block.prevBlockId).Nodup

/-! ### Calls on the chain -/

inductive ChainCall : Type
  | create (id name : String) (now : Int) (memberHashes : MemberHashes)
  | sealBlock (blockId : String) (now : Int)
  | quarantine (blockId : String)
  | release (blockId : String)

/-- A call that raises changes nothing. -/
def stateAfter {α : Type} (s : LocalStore) : Except MemoryError (α × LocalStore) → LocalStore
  | .ok (_, s') => s'
  | .error _ => s

def ChainCall.step (py : Python) (h : Hashing) (agentId : String) :
    ChainCall → LocalStore → LocalStore
  | .create id name now memberHashes, s => (createBlock agentId id name now memberHashes s).2
  | .sealBlock blockId now, s => stateAfter s (BlockChain.seal py h agentId blockId now s)
  | .quarantine blockId, s => stateAfter s (BlockChain.quarantine py blockId s)
  | .release blockId, s => stateAfter s (BlockChain.release py blockId s)

/-- A new block gets an id that no block has, and the clock of a seal reads
later than at the seals before. -/
def ChainCall.Timely (call : ChainCall) (s : LocalStore) : Prop :=
  match call with
  | .create id _ _ _ => s.getBlock id = none
  | .sealBlock _ now => ∀ b ∈ s.graph.blocks.rows, (b.sealedAt.all fun t => t < now) = true
  | .quarantine _ => True
  | .release _ => True

instance (call : ChainCall) (s : LocalStore) : Decidable (call.Timely s) :=
  match call with
  | .create id _ _ _ => inferInstanceAs (Decidable (s.getBlock id = none))
  | .sealBlock _ now =>
      inferInstanceAs
        (Decidable (∀ b ∈ s.graph.blocks.rows, (b.sealedAt.all fun t => t < now) = true))
  | .quarantine _ => isTrue trivial
  | .release _ => isTrue trivial

/-- The last block of the chain is in quarantine. -/
def LocalStore.tailQuarantined (s : LocalStore) (agentId : String) : Bool :=
  (s.sealedChain agentId).getLast?.any fun b => b.status = .quarantined

/-- An open block is not sealed while the last block of the chain is in
quarantine. -/
def ChainCall.OntoTail (agentId : String) (call : ChainCall) (s : LocalStore) : Prop :=
  match call with
  | .sealBlock blockId _ =>
      ((s.getBlock blockId).any fun b => b.status = .opened) = true →
        s.tailQuarantined agentId = false
  | .create _ _ _ _ => True
  | .quarantine _ => True
  | .release _ => True

instance (agentId : String) (call : ChainCall) (s : LocalStore) :
    Decidable (call.OntoTail agentId s) :=
  match call with
  | .sealBlock blockId _ =>
      inferInstanceAs
        (Decidable (((s.getBlock blockId).any fun b => b.status = .opened) = true →
          s.tailQuarantined agentId = false))
  | .create _ _ _ _ => isTrue trivial
  | .quarantine _ => isTrue trivial
  | .release _ => isTrue trivial

/-! ### The chain as a ghost list -/

/-- The blocks of one agent, and the sealed ones in the order of their
seals. -/
structure Sealing (agentId : String) (s : LocalStore) (chain : List Block) : Prop where
  agent : ∀ b ∈ s.graph.blocks.rows, b.agentId = agentId
  dated : ∀ b ∈ s.graph.blocks.rows, b.sealedAt.isSome = b.contentHash.isSome
  opened : ∀ b ∈ s.graph.blocks.rows, b.status = .opened → b.contentHash = none
  sealed : ∀ b ∈ s.graph.blocks.rows, b.status = .sealed → b.contentHash.isSome = true
  mem : ∀ b, b ∈ chain ↔ b ∈ s.graph.blocks.rows ∧ b.sealedAt.isSome = true
  sorted : chain.Pairwise fun a b => a.sealTime < b.sealTime

/-- What a block sealed now says about its predecessor. -/
def latestLink (chain : List Block) : Option String × Option String :=
  let prev := (chain.filter fun b => b.status = .sealed).getLast?
  (prev.map Block.id, prev.bind Block.contentHash)

/-- A block of the chain after `block` has been stored. -/
def Block.storedAgain (block : Block) (b : Block) : Block := if b.id = block.id then block else b

namespace Sealing

variable {agentId : String} {s : LocalStore} {chain : List Block}

theorem empty (hs : s.graph.blocks.rows = []) : Sealing agentId s [] := by
  constructor <;> simp [hs]

theorem nodup_rows (s : LocalStore) : s.graph.blocks.rows.Nodup :=
  List.Nodup.of_map Block.id s.graph.blocks.nodup

instance : Std.Total Block.sealedBefore :=
  ⟨fun a b => by
    unfold Block.sealedBefore
    omega⟩

instance : IsTrans Block Block.sealedBefore :=
  ⟨fun a b c hab hbc => by
    unfold Block.sealedBefore at *
    omega⟩

/-- The ghost list is what the query returns. -/
theorem sealedChain_eq (hI : Sealing agentId s chain) : s.sealedChain agentId = chain := by
  refine insertionSort_eq (hI.sorted.imp fun hab => ?_) ((nodup_rows s).filter _) fun b => ?_
  · unfold Block.sealedBefore
    omega
  · rw [hI.mem, List.mem_filter]
    refine and_congr_right fun hb => ?_
    have hstatus : b.sealedAt.isSome = true → b.status ≠ .opened := by
      intro hdated hopened
      rw [hI.dated b hb, hI.opened b hb hopened] at hdated
      cases hdated
    cases hs : b.status <;> simp_all [hI.agent b hb]

/-- The block that a new one is linked to. -/
theorem latest_eq (hI : Sealing agentId s chain) {blockId : String}
    (hid : ∀ b ∈ chain, b.id ≠ blockId) :
    s.latestSealedBlock agentId blockId =
      (chain.filter fun b => b.status = .sealed).getLast? := by
  have hsorted : (s.graph.blocks.rows.filter fun b =>
      b.agentId = agentId && b.status = .sealed && b.sealedAt.isSome &&
        b.id ≠ blockId).insertionSort (fun a b => b.sealedBefore a) =
      (chain.filter fun b => b.status = .sealed).reverse := by
    have : Std.Total fun a b : Block => b.sealedBefore a :=
      ⟨fun a b => by
        unfold Block.sealedBefore
        omega⟩
    have : IsTrans Block fun a b => b.sealedBefore a :=
      ⟨fun a b c hab hbc => by
        unfold Block.sealedBefore at *
        omega⟩
    refine insertionSort_eq ?_ ((nodup_rows s).filter _) fun b => ?_
    · rw [List.pairwise_reverse]
      refine (hI.sorted.filter _).imp fun hab => ?_
      unfold Block.sealedBefore
      omega
    · rw [List.mem_reverse, List.mem_filter, List.mem_filter, hI.mem]
      constructor
      · rintro ⟨hb, hp⟩
        simp only [Bool.and_eq_true, decide_eq_true_eq] at hp
        exact ⟨⟨hb, hp.1.2⟩, by simp [hp.1.1.2]⟩
      · rintro ⟨⟨hb, hdated⟩, hsealed⟩
        have hne := hid b ((hI.mem b).mpr ⟨hb, hdated⟩)
        refine ⟨hb, ?_⟩
        simp_all [hI.agent b hb]
  rw [LocalStore.latestSealedBlock, hsorted, List.head?_reverse]

/-! ### Steps -/

@[simp] theorem putBlock_blocks (s : LocalStore) (block : Block) :
    (s.putBlock block).graph.blocks = s.graph.blocks.insertOrReplace block := rfl

theorem mem_putBlock {block b : Block} :
    b ∈ (s.putBlock block).graph.blocks.rows ↔
      (b ∈ s.graph.blocks.rows ∧ b.id ≠ block.id) ∨ b = block := by
  simp

/-- A block that was never sealed comes in or changes. -/
theorem put_unsealed (hI : Sealing agentId s chain) {block : Block}
    (hagent : block.agentId = agentId) (hsealed : block.sealedAt = none)
    (hhash : block.contentHash = none) (hstatus : block.status ≠ .sealed)
    (hold : ∀ b ∈ s.graph.blocks.rows, b.id = block.id → b.sealedAt = none) :
    Sealing agentId (s.putBlock block) chain where
  agent b hb := by
    rcases mem_putBlock.mp hb with ⟨hb, -⟩ | rfl
    · exact hI.agent b hb
    · exact hagent
  dated b hb := by
    rcases mem_putBlock.mp hb with ⟨hb, -⟩ | rfl
    · exact hI.dated b hb
    · simp [hsealed, hhash]
  opened b hb hopened := by
    rcases mem_putBlock.mp hb with ⟨hb, -⟩ | rfl
    · exact hI.opened b hb hopened
    · exact hhash
  sealed b hb hb' := by
    rcases mem_putBlock.mp hb with ⟨hb, -⟩ | rfl
    · exact hI.sealed b hb hb'
    · exact absurd hb' hstatus
  mem b := by
    rw [hI.mem, mem_putBlock]
    constructor
    · rintro ⟨hb, hdated⟩
      refine ⟨.inl ⟨hb, fun hid => ?_⟩, hdated⟩
      rw [hold b hb hid] at hdated
      cases hdated
    · rintro ⟨⟨hb, -⟩ | rfl, hdated⟩
      · exact ⟨hb, hdated⟩
      · rw [hsealed] at hdated
        cases hdated
  sorted := hI.sorted

/-- The status of a sealed block changes. -/
theorem put_status (hI : Sealing agentId s chain) {block : Block} {status : BlockStatus}
    (hblock : block ∈ s.graph.blocks.rows) (hhash : block.contentHash.isSome = true)
    (hstatus : status ≠ .opened) :
    Sealing agentId (s.putBlock { block with status := status })
      (chain.map (Block.storedAgain { block with status := status })) where
  agent b hb := by
    rcases mem_putBlock.mp hb with ⟨hb, -⟩ | rfl
    · exact hI.agent b hb
    · exact hI.agent block hblock
  dated b hb := by
    rcases mem_putBlock.mp hb with ⟨hb, -⟩ | rfl
    · exact hI.dated b hb
    · exact hI.dated block hblock
  opened b hb hopened := by
    rcases mem_putBlock.mp hb with ⟨hb, -⟩ | rfl
    · exact hI.opened b hb hopened
    · exact absurd hopened hstatus
  sealed b hb hsealed := by
    rcases mem_putBlock.mp hb with ⟨hb, -⟩ | rfl
    · exact hI.sealed b hb hsealed
    · exact hhash
  mem b := by
    have hdated : block.sealedAt.isSome = true := by rw [hI.dated block hblock, hhash]
    rw [List.mem_map, mem_putBlock]
    constructor
    · rintro ⟨c, hc, rfl⟩
      obtain ⟨hcrow, hcdated⟩ := (hI.mem c).mp hc
      unfold Block.storedAgain
      split
      · exact ⟨.inr rfl, hdated⟩
      · rename_i hne
        exact ⟨.inl ⟨hcrow, hne⟩, hcdated⟩
    · rintro ⟨⟨hb, hne⟩ | rfl, hbdated⟩
      · exact ⟨b, (hI.mem b).mpr ⟨hb, hbdated⟩, if_neg hne⟩
      · exact ⟨block, (hI.mem block).mpr ⟨hblock, hdated⟩, if_pos rfl⟩
  sorted := by
    have htime : ∀ c ∈ chain, (Block.storedAgain { block with status := status } c).sealTime = c.sealTime := by
      intro c hc
      unfold Block.storedAgain
      split
      · rename_i hid
        have heq : c = block := s.graph.blocks.eq_of_key ((hI.mem c).mp hc).1 hblock hid
        rw [heq]
        rfl
      · rfl
    rw [List.pairwise_map]
    refine hI.sorted.imp_of_mem fun {a b} ha hb hab => ?_
    rw [htime a ha, htime b hb]
    exact hab

/-- A block joins the end of the chain. -/
theorem put_sealed (hI : Sealing agentId s chain) {block sealed : Block} {now : Int}
    (hblock : block ∈ s.graph.blocks.rows) (hopened : block.status = .opened)
    (hnow : ∀ b ∈ s.graph.blocks.rows, (b.sealedAt.all fun t => t < now) = true)
    (hid : sealed.id = block.id) (hagent : sealed.agentId = agentId)
    (hdate : sealed.sealedAt = some now) (hhash : sealed.contentHash.isSome = true)
    (hstatus : sealed.status = .sealed) :
    Sealing agentId (s.putBlock sealed) (chain ++ [sealed]) where
  agent b hb := by
    rcases mem_putBlock.mp hb with ⟨hb, -⟩ | rfl
    · exact hI.agent b hb
    · exact hagent
  dated b hb := by
    rcases mem_putBlock.mp hb with ⟨hb, -⟩ | rfl
    · exact hI.dated b hb
    · rw [hdate, hhash]
      rfl
  opened b hb hb' := by
    rcases mem_putBlock.mp hb with ⟨hb, -⟩ | rfl
    · exact hI.opened b hb hb'
    · rw [hstatus] at hb'
      cases hb'
  sealed b hb hb' := by
    rcases mem_putBlock.mp hb with ⟨hb, -⟩ | rfl
    · exact hI.sealed b hb hb'
    · exact hhash
  mem b := by
    rw [List.mem_append, List.mem_singleton, hI.mem, mem_putBlock]
    constructor
    · rintro (⟨hb, hdated⟩ | rfl)
      · refine ⟨.inl ⟨hb, fun hsame => ?_⟩, hdated⟩
        -- the block was open, so it had no seal time
        have heq : b = block := s.graph.blocks.eq_of_key hb hblock (hsame.trans hid)
        rw [hI.dated b hb, heq, hI.opened block hblock hopened] at hdated
        cases hdated
      · exact ⟨.inr rfl, by rw [hdate]; rfl⟩
    · rintro ⟨⟨hb, -⟩ | rfl, hdated⟩
      · exact .inl ⟨hb, hdated⟩
      · exact .inr rfl
  sorted := by
    rw [List.pairwise_append]
    refine ⟨hI.sorted, List.pairwise_singleton _ _, fun a ha b hb => ?_⟩
    obtain rfl := List.mem_singleton.mp hb
    obtain ⟨harow, hadated⟩ := (hI.mem a).mp ha
    obtain ⟨t, ht⟩ := Option.isSome_iff_exists.mp hadated
    have hlt : t < now := by simpa [ht] using hnow a harow
    simpa [Block.sealTime, ht, hdate] using hlt

/-! ### Links -/

theorem nodup_ids (hI : Sealing agentId s chain) : (chain.map fun b => some b.id).Nodup := by
  have hchain : chain.Nodup := hI.sorted.imp fun {a b} hab heq => by
    subst heq
    exact lt_irrefl _ hab
  refine hchain.map_on fun a ha b hb hab => ?_
  exact s.graph.blocks.eq_of_key ((hI.mem a).mp ha).1 ((hI.mem b).mp hb).1 (Option.some.inj hab)

/-- That no two blocks share a predecessor follows from the links. -/
theorem linearChain_iff (hI : Sealing agentId s chain) :
    LinearChain chain ↔ Linked Block.linkOut Block.linkIn (none, none) chain := by
  refine ⟨fun h => h.links, fun h => ⟨h, ?_⟩⟩
  have hfst : Linked (fun b : Block => some b.id) Block.prevBlockId none chain := h.comp Prod.fst
  exact hfst.nodup_inn (by simp) hI.nodup_ids

/-- It is linked to the last block of the chain exactly when that one is not
in quarantine. -/
theorem latestLink_iff (hI : Sealing agentId s chain) :
    latestLink chain = linkEnd Block.linkOut (none, none) chain ↔
      s.tailQuarantined agentId = false := by
  unfold LocalStore.tailQuarantined latestLink
  rw [hI.sealedChain_eq]
  rcases List.eq_nil_or_concat chain with rfl | ⟨bs, last, rfl⟩
  · simp
  · obtain ⟨hrow, hdated⟩ := (hI.mem last).mp (by simp)
    have hend : linkEnd Block.linkOut (none, none) (bs ++ [last]) =
        (some last.id, last.contentHash) := by
      simp [linkEnd, Block.linkOut]
    rw [List.concat_eq_append, hend, List.getLast?_concat, Option.any_some, List.filter_append]
    by_cases hsealed : last.status = .sealed
    · simp [hsealed]
    · have hquarantined : last.status = .quarantined := by
        cases hs : last.status with
        | opened =>
            rw [hI.dated last hrow, hI.opened last hrow hs] at hdated
            cases hdated
        | sealed => exact absurd hs hsealed
        | quarantined => rfl
      have hskip : [last].filter (fun b => b.status = .sealed) = [] := by simp [hsealed]
      rw [hskip, List.append_nil, hquarantined]
      refine ⟨fun hlink => ?_, fun hopen => absurd hopen (by decide)⟩
      -- the block found is an earlier one
      cases hfound : (bs.filter fun b => b.status = .sealed).getLast? with
      | none => simp [hfound] at hlink
      | some found =>
          have hmem : found ∈ bs := (List.mem_filter.mp (List.mem_of_getLast? hfound)).1
          have hid : found.id = last.id := by simpa [hfound] using congrArg Prod.fst hlink
          have hnodup := hI.nodup_ids
          rw [List.concat_eq_append, List.map_append, List.nodup_append] at hnodup
          exact absurd (congrArg some hid)
            (hnodup.2.2 _ (List.mem_map_of_mem hmem) _ (List.mem_map_of_mem List.mem_cons_self))

end Sealing

/-! ### One call and a run -/

section Steps

variable {py : Python} {h : Hashing} {agentId : String} {s : LocalStore} {chain : List Block}

theorem getBlock_mem {blockId : String} {block : Block} (hget : s.getBlock blockId = some block) :
    block ∈ s.graph.blocks.rows ∧ block.id = blockId :=
  Table.find?_eq_some_iff.mp hget

/-- A change of the status of a stored block. -/
theorem status_step (hI : Sealing agentId s chain) {block : Block} {status : BlockStatus}
    (hblock : block ∈ s.graph.blocks.rows)
    (hsealed : block.contentHash.isSome = true → status ≠ .opened)
    (hopened : block.contentHash = none → status ≠ .sealed) :
    ∃ chain', Sealing agentId (s.putBlock { block with status := status }) chain' ∧
      (LinearChain chain' ↔ LinearChain chain) := by
  by_cases hsome : block.contentHash.isSome = true
  · have hI' := hI.put_status hblock hsome (hsealed hsome)
    refine ⟨_, hI', ?_⟩
    rw [hI'.linearChain_iff, hI.linearChain_iff]
    have hsame : ∀ b ∈ chain, b.id = block.id → b = block := fun b hb =>
      s.graph.blocks.eq_of_key ((hI.mem b).mp hb).1 hblock
    refine linked_map (fun b hb => ?_) fun b hb => ?_
    all_goals
      unfold Block.storedAgain
      split
      · rename_i hid
        rw [hsame b hb hid]
        rfl
      · rfl
  · have hhash : block.contentHash = none := by simpa using hsome
    have hdated : block.sealedAt = none := by
      have hboth := hI.dated block hblock
      rw [hhash] at hboth
      simpa using hboth
    refine ⟨chain, ?_, Iff.rfl⟩
    refine hI.put_unsealed (hI.agent block hblock) hdated hhash (hopened hhash) fun b hb hid => ?_
    rw [s.graph.blocks.eq_of_key hb hblock hid]
    exact hdated

variable (py h) in
/-- What one call does to the chain. -/
theorem sealing_step (hI : Sealing agentId s chain) {call : ChainCall} (htimely : call.Timely s) :
    ∃ chain', Sealing agentId (call.step py h agentId s) chain' ∧
      (LinearChain chain' ↔ LinearChain chain ∧ call.OntoTail agentId s) := by
  cases call with
  | create id name now memberHashes =>
      refine ⟨chain, hI.put_unsealed rfl rfl rfl nofun fun b hb hid => ?_, ?_⟩
      · exact absurd hid (Table.find?_eq_none_iff.mp htimely b hb)
      · simp [ChainCall.OntoTail]
  | quarantine blockId =>
      simp only [ChainCall.step, BlockChain.quarantine, ChainCall.OntoTail, and_true]
      cases hget : s.getBlock blockId with
      | none => exact ⟨chain, hI, Iff.rfl⟩
      | some block => exact status_step hI (getBlock_mem hget).1 (fun _ => nofun) fun _ => nofun
  | release blockId =>
      simp only [ChainCall.step, BlockChain.release, ChainCall.OntoTail, and_true]
      cases hget : s.getBlock blockId with
      | none => exact ⟨chain, hI, Iff.rfl⟩
      | some block =>
          refine status_step hI (getBlock_mem hget).1 (fun hsome => ?_) fun hnone => ?_
          · simp [hsome]
          · simp [hnone]
  | sealBlock blockId now =>
      simp only [ChainCall.step, BlockChain.seal, ChainCall.OntoTail]
      cases hget : s.getBlock blockId with
      | none => exact ⟨chain, hI, by simp⟩
      | some block =>
          obtain ⟨hblock, hid⟩ := getBlock_mem hget
          by_cases hopened : block.status = .opened
          · simp only [hopened, ne_eq, not_true_eq_false, if_false, Option.any_some, decide_true,
              forall_const]
            have hnew : ∀ b ∈ chain, b.id ≠ blockId := by
              intro b hb hsame
              obtain ⟨hrow, hdated⟩ := (hI.mem b).mp hb
              have heq : b = block := s.graph.blocks.eq_of_key hrow hblock (hsame.trans hid.symm)
              rw [hI.dated b hrow, heq, hI.opened block hblock hopened] at hdated
              cases hdated
            let sealedBlock : Block := { block with
              status := .sealed
              contentHash := some (blockContentHash h (s.memberHashes h blockId))
              prevBlockId := (latestLink chain).1
              prevBlockHash := (latestLink chain).2
              sealedAt := some now
              memberHashes := s.memberHashes h blockId }
            have hI' : Sealing agentId (s.putBlock sealedBlock) (chain ++ [sealedBlock]) :=
              hI.put_sealed hblock hopened htimely rfl (hI.agent block hblock) rfl rfl rfl
            refine ⟨chain ++ [sealedBlock], ?_, ?_⟩
            · rw [hI.latest_eq hnew]
              exact hI'
            · rw [hI'.linearChain_iff, hI.linearChain_iff, linked_concat, ← hI.latestLink_iff]
              rfl
          · simp only [ne_eq, hopened, not_false_eq_true, if_true, Option.any_some, decide_false,
              Bool.false_eq_true, false_imp_iff, and_true]
            exact ⟨chain, hI, Iff.rfl⟩

/-- In every run the chain is linear exactly as long as every block is sealed
onto a chain whose last block is not in quarantine. -/
theorem chain_linear_iff (py : Python) (h : Hashing) (agentId : String) (s : LocalStore)
    (hs : s.graph.blocks.rows = []) (calls : List ChainCall)
    (htimely : Along (ChainCall.step py h agentId) ChainCall.Timely calls s) :
    LinearChain ((run (ChainCall.step py h agentId) calls s).sealedChain agentId) ↔
      Along (ChainCall.step py h agentId) (ChainCall.OntoTail agentId) calls s := by
  have hrun : ∀ (calls : List ChainCall) (s : LocalStore) (chain : List Block),
      Sealing agentId s chain → Along (ChainCall.step py h agentId) ChainCall.Timely calls s →
        (LinearChain ((run (ChainCall.step py h agentId) calls s).sealedChain agentId) ↔
          LinearChain chain ∧
            Along (ChainCall.step py h agentId) (ChainCall.OntoTail agentId) calls s) := by
    intro calls
    induction calls with
    | nil =>
        intro s chain hI _
        rw [run_nil, hI.sealedChain_eq]
        exact (and_iff_left trivial).symm
    | cons call calls ih =>
        intro s chain hI htimely
        obtain ⟨chain', hI', hlinear⟩ := sealing_step py h hI htimely.1
        rw [run_cons, ih _ chain' hI' htimely.2, hlinear, and_assoc]
        rfl
  rw [hrun calls s [] (Sealing.empty hs) htimely]
  exact and_iff_right ⟨trivial, List.nodup_nil⟩

end Steps

/-- Two blocks are sealed, and the first one is in quarantine for a while. -/
def quarantinedAfterwards : List ChainCall :=
  [.create "a" "first" 1 [], .sealBlock "a" 2, .create "b" "second" 3 [], .sealBlock "b" 4,
    .quarantine "a", .create "c" "third" 5 [], .sealBlock "c" 6, .release "a"]

theorem chain_linear_afterwards :
    LinearChain
        ((run (ChainCall.step .basic .plain "agent") quarantinedAfterwards .empty).sealedChain
          "agent") ↔
      Along (ChainCall.step .basic .plain "agent") (ChainCall.OntoTail "agent")
        quarantinedAfterwards .empty :=
  chain_linear_iff .basic .plain "agent" .empty rfl quarantinedAfterwards (by decide)

/-- The second block is sealed while the first one is in quarantine, and is
linked to none. -/
theorem sealed_beside_quarantine :
    ¬ ∀ (py : Python) (h : Hashing) (agentId : String) (s : LocalStore) (calls : List ChainCall),
      s.graph.blocks.rows = [] →
        Along (ChainCall.step py h agentId) ChainCall.Timely calls s →
          LinearChain ((run (ChainCall.step py h agentId) calls s).sealedChain agentId) := by
  intro hlinear
  have hchain := hlinear .basic .plain "agent" .empty
    [.create "a" "first" 1 [], .sealBlock "a" 2, .quarantine "a", .create "b" "second" 3 [],
      .sealBlock "b" 4] rfl (by decide)
  exact absurd hchain.links (by decide)

end MarkSdk
