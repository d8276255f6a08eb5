import MarkSdk.Index.Failures
import MarkSdk.Index.Search

/-!
Two backends side by side.

`Agree` says that two indexes hold the same vectors under the same ids in the
same order. Every call keeps it, whatever the backend of the one and with pure
Python in the other, unless a batch is refused behind its first vectors
(`SplitBatch`) or strands the dimension (`Strands`); searches then give the same
hits (`backends_agree`).
-/

namespace MarkSdk

open Lib

variable {ρ : Type}

namespace VectorIndex

/-- The same vectors, owners, contents and dimension. -/
structure Agree (index other : VectorIndex ρ) : Prop where
  held : index.held = other.held
  owner : index.owner = other.owner
  content : index.content = other.content
  dim : index.dim = other.dim

/-- Pure Python, for good. -/
structure PurePython (index : VectorIndex ρ) : Prop where
  auto : index.auto = false
  np : index.np = false

/-- Contents are kept for indexed ids only. -/
def ContentOwned (index : VectorIndex ρ) : Prop :=
  ∀ fragmentId ∈ index.content.keys, fragmentId ∈ index.owner.keys

/-- The block path refuses a batch whose first vector `add` takes. -/
def SplitBatch (env : IndexEnv ρ) : IndexCall ρ → VectorIndex ρ → Prop
  | .addMany ids embeddings _ _ _, index =>
      ids ≠ [] ∧ embeddings.length = ids.length ∧
        (index.promoteFor env ids embeddings).fresh ids = true ∧
          homogeneous embeddings = false ∧ width embeddings ≠ 0 ∧
            (index.dim = none ∨ index.dim = some (width embeddings))
  | _, _ => False

instance (env : IndexEnv ρ) :
    (call : IndexCall ρ) → (index : VectorIndex ρ) → Decidable (SplitBatch env call index)
  | .addMany ids embeddings _ _ _, index =>
      inferInstanceAs (Decidable (ids ≠ [] ∧ embeddings.length = ids.length ∧
        (index.promoteFor env ids embeddings).fresh ids = true ∧
          homogeneous embeddings = false ∧ width embeddings ≠ 0 ∧
            (index.dim = none ∨ index.dim = some (width embeddings))))
  | .add _ _ _ _, _ | .remove _, _ | .clearAll, _ | .clear _, _ => isFalse id

/-- Rows that are handed over as normalised are normalised. -/
def Promised (env : IndexEnv ρ) : IndexCall ρ → Prop
  | .addMany _ embeddings _ _ normalised =>
      normalised = true → ∀ v ∈ embeddings, env.normalize v = v
  | _ => True

variable {env : IndexEnv ρ} {index other : VectorIndex ρ}

/-! ### One vector -/

section Put

variable (fragmentId : String) (v : List ρ) (content : String) (agentId : Option String)

/-- The content of an id that is written. -/
def contentAfter (contents : Dict String String) (fragmentId content : String) :
    Dict String String :=
  if content ≠ "" then contents.set fragmentId content else contents.pop fragmentId

theorem fields_leaveOwner (index : VectorIndex ρ) :
    (index.leaveOwner fragmentId agentId).content = index.content ∧
      (index.leaveOwner fragmentId agentId).np = index.np ∧
        (index.leaveOwner fragmentId agentId).auto = index.auto := by
  rw [leaveOwner]
  split
  · obtain ⟨-, hcontent, -, hnp, hauto, -⟩ := index.fields_partitionRemove
      ((index.owner.get? fragmentId).getD agentId) fragmentId
    exact ⟨hcontent, hnp, hauto⟩
  · exact ⟨rfl, rfl, rfl⟩

theorem fields_write (index : VectorIndex ρ) :
    (index.write fragmentId v content agentId).content =
        contentAfter index.content fragmentId content ∧
      (index.write fragmentId v content agentId).np = index.np ∧
        (index.write fragmentId v content agentId).auto = index.auto := by
  obtain ⟨hcontent, hnp, hauto⟩ := fields_leaveOwner fragmentId agentId index
  refine ⟨?_, hnp, hauto⟩
  show contentAfter (index.leaveOwner fragmentId agentId).content fragmentId content = _
  rw [hcontent]

theorem content_put (env : IndexEnv ρ) (index : VectorIndex ρ) :
    (index.put env fragmentId v content agentId).content =
      contentAfter index.content fragmentId content := by
  rw [put]
  split
  · rw [content_promote]
    exact (fields_write fragmentId v content agentId index).1
  · exact (fields_write fragmentId v content agentId index).1

theorem PurePython.put (h : index.PurePython) (env : IndexEnv ρ) :
    (index.put env fragmentId v content agentId).PurePython := by
  obtain ⟨-, hnp, hauto⟩ := fields_write fragmentId v content agentId index
  rw [VectorIndex.put]
  rw [hauto, h.auto, if_neg (by simp)]
  exact ⟨hauto.trans h.auto, hnp.trans h.np⟩

theorem Agree.put (h : index.Agree other) (hindex : index.Sound) (hother : other.Sound) :
    (index.put env fragmentId v content agentId).Agree
      (other.put env fragmentId v content agentId) := by
  obtain ⟨hheld, -, howner, hdim⟩ := put_spec env hindex.partitions fragmentId v content agentId
  obtain ⟨hheld', -, howner', hdim'⟩ := put_spec env hother.partitions fragmentId v content agentId
  refine ⟨?_, ?_, ?_, ?_⟩
  · rw [hheld, hheld', h.held, h.owner]
  · rw [howner, howner', h.owner]
  · rw [content_put, content_put, h.content]
  · rw [hdim, hdim', h.dim]

theorem mem_keys_contentAfter {contents : Dict String String} {x : String}
    (hx : x ∈ (contentAfter contents fragmentId content).keys) :
    x ∈ contents.keys ∨ x = fragmentId := by
  rw [contentAfter] at hx
  split at hx
  · exact Dict.mem_keys_set.mp hx
  · rw [Dict.keys_pop] at hx
    exact .inl (List.mem_of_mem_filter hx)

theorem ContentOwned.put (h : index.ContentOwned) (hindex : index.Sound) (env : IndexEnv ρ) :
    (index.put env fragmentId v content agentId).ContentOwned := by
  obtain ⟨-, -, howner, -⟩ := put_spec env hindex.partitions fragmentId v content agentId
  intro x hx
  rw [content_put] at hx
  rw [howner, Dict.mem_keys_set]
  exact (mem_keys_contentAfter fragmentId content hx).imp_left (h x)

end Put

theorem Agree.withDim (h : index.Agree other) (dim : Option Nat) :
    ({ index with dim := dim } : VectorIndex ρ).Agree { other with dim := dim } :=
  ⟨h.held, h.owner, h.content, rfl⟩

/-- `add` looks at the dimension only to refuse. -/
theorem Agree.add (h : index.Agree other) (hindex : index.Sound) (hother : other.Sound)
    (fragmentId : String) (v : List ρ) (content : String) (agentId : Option String) :
    (index.add env fragmentId v content agentId).1.Agree
        (other.add env fragmentId v content agentId).1 ∧
      (index.add env fragmentId v content agentId).2 =
        (other.add env fragmentId v content agentId).2 := by
  rw [VectorIndex.add, VectorIndex.add]
  split
  case isTrue => exact ⟨h, rfl⟩
  case isFalse =>
    rw [h.dim]
    cases hdim : other.dim with
    | none =>
        exact ⟨(h.withDim (some (env.normalize v).length)).put fragmentId _ content agentId
          (hindex.withDim _) (hother.withDim _), rfl⟩
    | some dim =>
        simp only
        split
        · exact ⟨h, rfl⟩
        · exact ⟨h.put fragmentId _ content agentId hindex hother, rfl⟩

theorem Agree.addEach (h : index.Agree other) (hindex : index.Sound) (hother : other.Sound)
    (agentId : Option String) (items : List (String × List ρ)) :
    (VectorIndex.addEach env agentId items index).1.Agree
      (VectorIndex.addEach env agentId items other).1 := by
  induction items generalizing index other with
  | nil => exact h
  | cons item items ih =>
      obtain ⟨hagree, hsame⟩ := @Agree.add ρ env index other h hindex hother item.1 item.2 "" agentId
      have hsound := hindex.add env item.1 item.2 "" agentId
      have hsound' := hother.add env item.1 item.2 "" agentId
      rw [VectorIndex.addEach, VectorIndex.addEach]
      revert hagree hsame hsound hsound'
      generalize index.add env item.1 item.2 "" agentId = after
      generalize other.add env item.1 item.2 "" agentId = after'
      obtain ⟨after, outcome⟩ := after
      obtain ⟨after', outcome'⟩ := after'
      rintro hagree rfl hsound hsound'
      cases outcome with
      | error e => exact hagree
      | ok => exact ih hagree hsound hsound'

/-! ### A batch -/

/-- `add` refuses a vector of another width than the index's, or none at all. -/
theorem add_refuses {fragmentId : String} {v : List ρ} {content : String}
    {agentId : Option String}
    (h : v.length = 0 ∨ ∃ dim, index.dim = some dim ∧ v.length ≠ dim) :
    ∃ e, index.add env fragmentId v content agentId = (index, .error e) := by
  obtain herror | ⟨hv, hdim, -⟩ := index.add_cases env fragmentId v content agentId
  · exact herror
  · exfalso
    obtain hzero | ⟨dim, hset, hne⟩ := h
    · exact hv (List.eq_nil_of_length_eq_zero hzero)
    · rw [hset] at hdim
      obtain hnone | hsame := hdim
      · cases hnone
      · exact hne (Option.some.inj hsame).symm

/-- A batch whose first vector is refused changes nothing. -/
theorem addEach_refuses {ids : List String} {embeddings : List (List ρ)}
    (hlength : embeddings.length = ids.length) (agentId : Option String)
    (h : width embeddings = 0 ∨ ∃ dim, index.dim = some dim ∧ width embeddings ≠ dim) :
    (addEach env agentId (ids.zip embeddings) index).1 = index := by
  cases ids with
  | nil => rfl
  | cons x ids =>
      obtain ⟨v, embeddings, rfl⟩ := List.exists_cons_of_length_eq_add_one hlength
      obtain ⟨e, he⟩ := @add_refuses ρ env index x v "" agentId h
      rw [List.zip_cons_cons, addEach, he]

/-- The first vector sets the dimension, or meets it. -/
theorem addEach_withDim {ids : List String} {embeddings : List (List ρ)} (hids : ids ≠ [])
    (hlength : embeddings.length = ids.length) (agentId : Option String)
    (hwidth : width embeddings ≠ 0) (hdim : index.dim = none) :
    addEach env agentId (ids.zip embeddings) { index with dim := some (width embeddings) } =
      addEach env agentId (ids.zip embeddings) index := by
  obtain ⟨x, ids, rfl⟩ := List.exists_cons_of_ne_nil hids
  obtain ⟨v, embeddings, rfl⟩ := List.exists_cons_of_length_eq_add_one hlength
  have hv : width (v :: embeddings) = v.length := rfl
  rw [hv] at hwidth ⊢
  have hset := @add_takes ρ env { index with dim := some v.length } x v "" agentId hwidth (.inr rfl)
  rw [List.zip_cons_cons, addEach, addEach, add_takes hwidth (.inl hdim), hset]

/-- One by one, a batch of new ids becomes the block that the other path
appends. -/
theorem addEach_block (hindex : index.Sound) (hcontent : index.ContentOwned) {ids : List String}
    {embeddings : List (List ρ)} (hids : ids ≠ []) (hlength : embeddings.length = ids.length)
    (agentId : Option String) {dim : Nat} (hpos : dim ≠ 0) (hdim : index.dim = some dim)
    (hwidths : ∀ v ∈ embeddings, v.length = dim) (hnew : ∀ x ∈ ids, x ∉ index.owner.keys)
    (hnodup : ids.Nodup) :
    let after := (addEach env agentId (ids.zip embeddings) index).1
    after.held = index.held.set agentId (((index.held.get? agentId).getD .empty).updateAll
        (ids.zip (embeddings.map env.normalize))) ∧
      after.owner = index.owner.updateAll (ids.map fun fragmentId => (fragmentId, agentId)) ∧
        after.content = index.content ∧ after.dim = some dim := by
  induction ids generalizing index embeddings with
  | nil => exact absurd rfl hids
  | cons x ids ih =>
      obtain ⟨v, embeddings, rfl⟩ := List.exists_cons_of_length_eq_add_one hlength
      obtain ⟨hx, hnew⟩ := List.forall_mem_cons.mp hnew
      obtain ⟨hv, hwidths⟩ := List.forall_mem_cons.mp hwidths
      obtain ⟨hnotin, hnodup⟩ := List.nodup_cons.mp hnodup
      have hlength : embeddings.length = ids.length := Nat.succ.inj hlength
      -- the first vector is written, and its id is no one's before
      let next := index.put env x (env.normalize v) "" agentId
      have hadd : index.add env x v "" agentId = (next, .ok ()) := by
        rw [add_takes (by rw [hv]; exact hpos) (.inr (by rw [hdim, hv])), hv, ← hdim]
      obtain ⟨hheld, hparts, howner, hdim'⟩ :=
        put_spec env hindex.partitions x (env.normalize v) "" agentId
      have hheld : next.held = index.held.set agentId
          (((index.held.get? agentId).getD .empty).set x (env.normalize v)) := by
        refine hheld.trans ?_
        rw [heldPut, heldLeave, if_neg fun h => hx h.1]
      have hsame : next.content = index.content := by
        rw [content_put, contentAfter, if_neg (by simp)]
        exact Dict.pop_of_not_mem fun h => hx (hcontent x h)
      have hnext : next.Sound := hindex.put env x (env.normalize v) "" agentId
      have hstep : addEach env agentId ((x :: ids).zip (v :: embeddings)) index =
          addEach env agentId (ids.zip embeddings) next := by
        rw [List.zip_cons_cons, addEach, hadd]
      rw [hstep]
      cases ids with
      | nil => exact ⟨hheld, howner, hsame, hdim'.trans hdim⟩
      | cons y ids =>
          have hnew' : ∀ z ∈ y :: ids, z ∉ next.owner.keys := by
            intro z hz hin
            rw [howner, Dict.mem_keys_set] at hin
            obtain hin | rfl := hin
            · exact hnew z hz hin
            · exact hnotin hz
          obtain ⟨hheld', howner', hcontent', hdim''⟩ := ih hnext
            (hcontent.put x (env.normalize v) "" agentId hindex env) (List.cons_ne_nil y ids)
            hlength (hdim'.trans hdim) hwidths hnew' hnodup
          refine ⟨?_, ?_, hcontent'.trans hsame, hdim''⟩
          · rw [hheld', hheld, Dict.set_set, Dict.get?_set, if_pos rfl]
            rfl
          · rw [howner', howner]
            rfl

/-- The rows of a block are the normalised vectors. -/
theorem addBlock_appends {ids : List String} {embeddings : List (List ρ)}
    {agentId : Option String} {expected : Nat} {normalised : Bool}
    (hpromised : Promised env (.addMany ids embeddings agentId expected normalised))
    (hhomogeneous : homogeneous embeddings = true) (hwidth : width embeddings ≠ 0)
    (hdim : index.dim = none ∨ index.dim = some (width embeddings)) :
    (index.addBlock env ids embeddings agentId expected normalised).1 =
      putBlock { index with dim := some (width embeddings) } ids (embeddings.map env.normalize)
        agentId expected := by
  have hrows : (if normalised then embeddings else embeddings.map env.normalize) =
      embeddings.map env.normalize := by
    split
    · rename_i hnormalised
      refine ((List.map_congr_left fun v hv => ?_).trans (List.map_id embeddings)).symm
      exact hpromised hnormalised v hv
    · rfl
  have hwidth' : index.dim.getD (width embeddings) = width embeddings := by
    obtain hdim | hdim := hdim <;> rw [hdim] <;> rfl
  rw [addBlock, if_neg (not_not_intro hhomogeneous), hwidth']
  simp only [hwidth, if_false, ne_eq, not_true_eq_false, hrows]

theorem Agree.promoteFor (h : index.Agree other) (ids : List String)
    (embeddings : List (List ρ)) :
    (index.promoteFor env ids embeddings).Agree
      { other with dim := (index.promoteFor env ids embeddings).dim } := by
  have hsame := sameHeld_promoteFor env index ids embeddings
  exact ⟨hsame.held.trans h.held, hsame.owner.trans h.owner, hsame.content.trans h.content, rfl⟩

/-- The dimension before a batch: the index's, or that of the batch. -/
theorem dim_promoteFor_cases (env : IndexEnv ρ) (index : VectorIndex ρ) (ids : List String)
    (embeddings : List (List ρ)) :
    (index.promoteFor env ids embeddings).dim = index.dim ∨
      index.dim = none ∧
        (index.auto ∧ index.owner.size + ids.length ≥ env.autoNumpyThreshold) ∧
          (index.promoteFor env ids embeddings).dim = some (width embeddings) := by
  by_cases hpromotes : index.auto ∧ index.owner.size + ids.length ≥ env.autoNumpyThreshold
  · rw [VectorIndex.promoteFor, if_pos hpromotes, dim_promote]
    cases hdim : index.dim with
    | none => exact .inr ⟨rfl, hpromotes, rfl⟩
    | some dim => exact .inl rfl
  · rw [VectorIndex.promoteFor, if_neg hpromotes]
    exact .inl rfl

theorem PurePython.promoteFor (h : other.PurePython) (env : IndexEnv ρ) (ids : List String)
    (embeddings : List (List ρ)) : other.promoteFor env ids embeddings = other := by
  rw [VectorIndex.promoteFor, if_neg (fun hp => by rw [h.auto] at hp; exact absurd hp.1 (by simp))]

/-- Pure Python adds every batch one by one. -/
theorem PurePython.addMany (h : other.PurePython) {ids : List String}
    {embeddings : List (List ρ)} (hids : ids ≠ []) (hlength : embeddings.length = ids.length)
    (agentId : Option String) (expected : Nat) (normalised : Bool) :
    other.addMany env ids embeddings agentId expected normalised =
      VectorIndex.addEach env agentId (ids.zip embeddings) other := by
  have hfresh : other.fresh ids = false := by rw [fresh, h.np]; rfl
  rw [VectorIndex.addMany, if_neg hids, if_neg (not_not_intro hlength)]
  simp only [h.promoteFor, hfresh]
  rfl

theorem Agree.addMany (h : index.Agree other) (hindex : index.Sound) (hother : other.Sound)
    (hpure : other.PurePython) (hcontent : other.ContentOwned) {ids : List String}
    {embeddings : List (List ρ)} {agentId : Option String} {expected : Nat} {normalised : Bool}
    (hstrands : ¬ Strands env (.addMany ids embeddings agentId expected normalised) index)
    (hsplit : ¬ SplitBatch env (.addMany ids embeddings agentId expected normalised) index)
    (hpromised : Promised env (.addMany ids embeddings agentId expected normalised)) :
    (index.addMany env ids embeddings agentId expected normalised).1.Agree
      (other.addMany env ids embeddings agentId expected normalised).1 := by
  by_cases hids : ids = []
  · rw [VectorIndex.addMany, VectorIndex.addMany, if_pos hids, if_pos hids]
    exact h
  by_cases hlength : embeddings.length = ids.length
  case neg =>
    rw [VectorIndex.addMany, VectorIndex.addMany, if_neg hids, if_neg hids, if_pos hlength,
      if_pos hlength]
    exact h
  case pos =>
    rw [hpure.addMany hids hlength, VectorIndex.addMany, if_neg hids,
      if_neg (not_not_intro hlength)]
    have hstarted := hindex.promoteFor env ids embeddings
    have hagree := @Agree.promoteFor ρ env index other h ids embeddings
    have hdims := dim_promoteFor_cases env index ids embeddings
    -- the automatic backend took the dimension of the batch: no empty vectors then
    have hwidth : (index.promoteFor env ids embeddings).dim ≠ index.dim →
        width embeddings ≠ 0 ∧ ¬ ((index.promoteFor env ids embeddings).fresh ids = true ∧
          homogeneous embeddings = false) := by
      intro hne
      obtain hsame | ⟨hdim, hpromotes, -⟩ := hdims
      · exact absurd hsame hne
      · by_contra hbad
        rw [not_and_or, not_not, not_not] at hbad
        refine hstrands ⟨hdim, hids, hlength, ?_⟩
        rw [if_pos hpromotes]
        exact hbad
    simp only
    split
    case isFalse =>
      have heach := @Agree.addEach ρ env _ _ hagree hstarted (hother.withDim _) agentId
        (ids.zip embeddings)
      obtain hsame | ⟨hdim, -, hset⟩ := hdims
      · rw [hsame, h.dim] at heach
        exact heach
      · have hne : (index.promoteFor env ids embeddings).dim ≠ index.dim := by
          rw [hset, hdim]
          exact Option.some_ne_none _
        rw [hset, addEach_withDim hids hlength agentId (hwidth hne).1 (h.dim.symm.trans hdim)]
          at heach
        exact heach
    case isTrue hfresh =>
      have hnew := hfresh
      rw [fresh, Bool.and_eq_true, Bool.and_eq_true, decide_eq_true_iff, decide_eq_true_iff] at hnew
      obtain ⟨⟨-, hnew⟩, hnodup⟩ := hnew
      obtain ⟨hbad, ho⟩ | ⟨hhomogeneous, hbad, e, ho⟩ | ⟨hhomogeneous, hpos, hdim, -⟩ :=
        (index.promoteFor env ids embeddings).addBlock_cases env ids embeddings agentId expected
          normalised
      · -- numpy makes no array of the batch, and the first vector is refused as well
        obtain hsame | ⟨hdim, -, hset⟩ := hdims
        · have hrefused : width embeddings = 0 ∨
              ∃ dim, other.dim = some dim ∧ width embeddings ≠ dim := by
            by_contra hall
            rw [not_or, not_exists] at hall
            refine hsplit ⟨hids, hlength, hfresh, hbad, hall.1, ?_⟩
            rw [h.dim]
            cases hdim : other.dim with
            | none => exact .inl rfl
            | some dim => exact .inr (by rw [not_not.mp fun hne => hall.2 dim ⟨hdim, hne⟩])
          rw [ho, addEach_refuses hlength agentId hrefused]
          rw [hsame, h.dim] at hagree
          exact hagree
        · have hne : (index.promoteFor env ids embeddings).dim ≠ index.dim := by
            rw [hset, hdim]
            exact Option.some_ne_none _
          exact absurd ⟨hfresh, hbad⟩ (hwidth hne).2
      · obtain hsame | ⟨hdim, -, hset⟩ := hdims
        · rw [hsame] at hbad hagree
          cases hdim : index.dim with
          | none =>
              -- an index without a dimension would be left with one
              exfalso
              obtain hzero | ⟨dim, hother, -⟩ := hbad
              · have hkept : ¬ (index.auto ∧
                    index.owner.size + ids.length ≥ env.autoNumpyThreshold) := by
                  intro hpromotes
                  rw [VectorIndex.promoteFor, if_pos hpromotes, dim_promote, hdim] at hsame
                  cases hsame
                rw [VectorIndex.promoteFor, if_neg hkept] at hfresh
                refine hstrands ⟨hdim, hids, hlength, ?_⟩
                rw [if_neg hkept]
                exact ⟨hzero, hfresh, hhomogeneous⟩
              · rw [hdim] at hother
                cases hother
          | some dim =>
              have hrefused : width embeddings = 0 ∨
                  ∃ dim, other.dim = some dim ∧ width embeddings ≠ dim := by rwa [← h.dim]
              rw [ho, addEach_refuses hlength agentId hrefused, hsame]
              refine ⟨hagree.held, hagree.owner, hagree.content, ?_⟩
              rw [← h.dim, hdim]
              rfl
        · have hne : (index.promoteFor env ids embeddings).dim ≠ index.dim := by
            rw [hset, hdim]
            exact Option.some_ne_none _
          obtain hzero | ⟨dim, hother, hdiffers⟩ := hbad
          · exact absurd hzero (hwidth hne).1
          · rw [hset] at hother
            exact absurd (Option.some.inj hother) hdiffers
      · have hset : VectorIndex.addEach env agentId (ids.zip embeddings) other =
            VectorIndex.addEach env agentId (ids.zip embeddings)
              { other with dim := some (width embeddings) } := by
          cases hdim' : other.dim with
          | none => exact (addEach_withDim hids hlength agentId hpos hdim').symm
          | some dim =>
              have hkept := @dim_promoteFor ρ env index ids embeddings dim (h.dim.trans hdim')
              rw [hkept] at hdim
              obtain hnone | hdim := hdim
              · cases hnone
              · rw [← hdim, ← hdim']
        have howners : (index.promoteFor env ids embeddings).owner = other.owner := hagree.owner
        rw [howners] at hnew
        obtain ⟨hheld, howner, hsame, hdim'⟩ := @addEach_block ρ env
          { other with dim := some (width embeddings) } (hother.withDim _) hcontent ids embeddings
          hids hlength agentId _ hpos rfl
          (fun v hv => of_decide_eq_true (List.all_eq_true.mp hhomogeneous v hv)) hnew hnodup
        have hsized := hstarted.withDim (some (width embeddings))
        have hrows : (embeddings.map env.normalize).length = ids.length :=
          (List.length_map env.normalize).trans hlength
        obtain ⟨hput, -⟩ := putBlock_spec hsized.partitions hsized.owned hfresh hrows agentId expected
        rw [addBlock_appends hpromised hhomogeneous hpos hdim, hset]
        refine ⟨?_, ?_, ?_, hdim'.symm⟩
        · have hsame : ({ index.promoteFor env ids embeddings with
              dim := some (width embeddings) } : VectorIndex ρ).held = other.held := hagree.held
          rw [hput, hsame, hheld]
          rfl
        · rw [howner]
          show (index.promoteFor env ids embeddings).owner.updateAll _ = _
          rw [hagree.owner]
        · rw [hsame]
          exact hagree.content

/-! ### What takes ids out -/

theorem Agree.remove (h : index.Agree other) (hindex : index.Sound) (hother : other.Sound)
    (fragmentId : String) : (index.remove fragmentId).Agree (other.remove fragmentId) := by
  cases hown : other.owner.get? fragmentId with
  | none =>
      rw [VectorIndex.remove, VectorIndex.remove, h.owner, hown]
      exact h
  | some agentId =>
      have hown' : index.owner.get? fragmentId = some agentId := by rw [h.owner, hown]
      obtain ⟨hheld, howner, -⟩ := held_remove hindex hown'
      obtain ⟨hheld', howner', -⟩ := held_remove hother hown
      obtain ⟨-, hcontent, hdim⟩ := fields_remove hown'
      obtain ⟨-, hcontent', hdim'⟩ := fields_remove hown
      refine ⟨?_, ?_, ?_, ?_⟩
      · rw [hheld, hheld', h.held]
      · rw [howner, howner', h.owner]
      · rw [hcontent, hcontent', h.content]
      · rw [hdim, hdim', h.owner, h.dim]

theorem Agree.clearAll (index other : VectorIndex ρ) : index.clearAll.Agree other.clearAll :=
  ⟨rfl, rfl, rfl, rfl⟩

/-- The ids that an agent's partition holds. -/
theorem ids_partition (index : VectorIndex ρ) (agentId : Option String) :
    (index.partitions.get? agentId).map Partition.ids =
      (index.held.get? agentId).map Dict.keys := by
  rw [held_get?, Option.map_map]
  congr 1
  funext q
  exact q.ids_eq

theorem Agree.clear (h : index.Agree other) (agentId : String) :
    (index.clear agentId).Agree (other.clear agentId) := by
  have hids := index.ids_partition (some agentId)
  rw [h.held, ← other.ids_partition] at hids
  rw [VectorIndex.clear, VectorIndex.clear]
  cases hq : other.partitions.get? (some agentId) with
  | none =>
      rw [hq, Option.map_none, Option.map_eq_none_iff] at hids
      rw [hids]
      exact ⟨h.held, h.owner, h.content, h.dim⟩
  | some q =>
      rw [hq, Option.map_some] at hids
      obtain ⟨q', hq', hsame⟩ := Option.map_eq_some_iff.mp hids
      rw [hq']
      refine ⟨?_, ?_, ?_, ?_⟩
      · show (index.partitions.pop _).mapValues _ = (other.partitions.pop _).mapValues _
        rw [Dict.mapValues_pop, Dict.mapValues_pop]
        exact congrArg (fun held : HeldVectors ρ => held.pop (some agentId)) h.held
      · show q'.ids.foldl Dict.pop index.owner = q.ids.foldl Dict.pop other.owner
        rw [hsame, h.owner]
      · show q'.ids.foldl Dict.pop index.content = q.ids.foldl Dict.pop other.content
        rw [hsame, h.content]
      · show (if (q'.ids.foldl Dict.pop index.owner).size = 0 then none else index.dim) =
          if (q.ids.foldl Dict.pop other.owner).size = 0 then none else other.dim
        rw [hsame, h.owner, h.dim]

/-! ### The Python index along a run -/

/-- Pure Python and in order. -/
structure Plain (index : VectorIndex ρ) : Prop where
  sound : index.Sound
  pure : index.PurePython
  content : index.ContentOwned

theorem Plain.add (h : other.Plain) (env : IndexEnv ρ) (fragmentId : String) (v : List ρ)
    (content : String) (agentId : Option String) :
    (other.add env fragmentId v content agentId).1.Plain := by
  obtain ⟨e, he⟩ | ⟨-, -, hok⟩ := other.add_cases env fragmentId v content agentId
  · rw [he]
    exact h
  · have hsized : ({ other with dim := some v.length } : VectorIndex ρ).PurePython := ⟨h.pure.1, h.pure.2⟩
    have howned : ({ other with dim := some v.length } : VectorIndex ρ).ContentOwned := h.content
    rw [hok]
    exact ⟨(h.sound.withDim _).put env fragmentId _ content agentId,
      hsized.put fragmentId _ content agentId env,
      howned.put fragmentId _ content agentId (h.sound.withDim _) env⟩

theorem Plain.addEach (h : other.Plain) (env : IndexEnv ρ) (agentId : Option String)
    (items : List (String × List ρ)) : (VectorIndex.addEach env agentId items other).1.Plain := by
  induction items generalizing other with
  | nil => exact h
  | cons item items ih =>
      have hadd := h.add env item.1 item.2 "" agentId
      rw [VectorIndex.addEach]
      cases hresult : other.add env item.1 item.2 "" agentId with
      | mk after outcome =>
          rw [hresult] at hadd
          cases outcome with
          | error e => exact hadd
          | ok => exact ih hadd

theorem Plain.addMany (h : other.Plain) (env : IndexEnv ρ) (ids : List String)
    (embeddings : List (List ρ)) (agentId : Option String) (expected : Nat) (normalised : Bool) :
    (other.addMany env ids embeddings agentId expected normalised).1.Plain := by
  by_cases hids : ids = []
  · rw [VectorIndex.addMany, if_pos hids]
    exact h
  · by_cases hlength : embeddings.length = ids.length
    · rw [h.pure.addMany hids hlength]
      exact h.addEach env agentId (ids.zip embeddings)
    · rw [VectorIndex.addMany, if_neg hids, if_pos hlength]
      exact h

theorem Plain.remove (h : other.Plain) (fragmentId : String) : (other.remove fragmentId).Plain := by
  refine ⟨h.sound.remove fragmentId, ?_, ?_⟩
  · rw [VectorIndex.remove]
    split
    · exact h.pure
    · rename_i agentId hown
      obtain ⟨-, -, -, hnp, hauto, -⟩ := VectorIndex.fields_partitionRemove
        { other with
          owner := other.owner.pop fragmentId
          content := other.content.pop fragmentId } agentId fragmentId
      exact ⟨hauto.trans h.pure.auto, hnp.trans h.pure.np⟩
  · cases hown : other.owner.get? fragmentId with
    | none =>
        rw [VectorIndex.remove, hown]
        exact h.content
    | some agentId =>
        obtain ⟨-, howner, -⟩ := held_remove h.sound hown
        obtain ⟨-, hcontent, -⟩ := fields_remove hown
        intro x hx
        rw [hcontent, Dict.keys_pop, List.mem_filter] at hx
        rw [howner, Dict.keys_pop, List.mem_filter]
        exact ⟨h.content x hx.1, hx.2⟩

theorem Plain.clear (h : other.Plain) (agentId : String) : (other.clear agentId).Plain := by
  refine ⟨h.sound.clear agentId, ?_, ?_⟩
  · rw [VectorIndex.clear]
    split <;> exact ⟨h.pure.auto, h.pure.np⟩
  · rw [VectorIndex.clear]
    split
    · exact h.content
    · rename_i q hq
      intro x hx
      obtain ⟨c, hc⟩ := Dict.mem_keys_iff.mp hx
      rw [Dict.get?_foldl_pop] at hc
      split at hc
      · cases hc
      · rename_i hnotin
        obtain ⟨a, ha⟩ := Dict.mem_keys_iff.mp (h.content x (Dict.mem_keys_iff.mpr ⟨c, hc⟩))
        refine Dict.mem_keys_iff.mpr ⟨a, ?_⟩
        rw [Dict.get?_foldl_pop, if_neg hnotin, ha]

theorem Plain.step (h : other.Plain) (env : IndexEnv ρ) (call : IndexCall ρ) :
    (other.step env call).Plain := by
  cases call with
  | add fragmentId v content agentId => exact h.add env fragmentId v content agentId
  | addMany ids embeddings agentId expected normalised =>
      exact h.addMany env ids embeddings agentId expected normalised
  | remove fragmentId => exact h.remove fragmentId
  | clearAll => exact ⟨other.sound_clearAll, ⟨h.pure.auto, h.pure.np⟩, by rintro x ⟨⟩⟩
  | clear agentId => exact h.clear agentId

/-! ### Runs -/

theorem Agree.step (h : index.Agree other) (hindex : index.Sound) (hother : other.Plain)
    {call : IndexCall ρ} (hstrands : ¬ Strands env call index) (hsplit : ¬ SplitBatch env call index)
    (hpromised : Promised env call) : (index.step env call).Agree (other.step env call) := by
  cases call with
  | add fragmentId v content agentId =>
      exact (h.add hindex hother.sound fragmentId v content agentId).1
  | addMany ids embeddings agentId expected normalised =>
      exact h.addMany hindex hother.sound hother.pure hother.content hstrands hsplit hpromised
  | remove fragmentId => exact h.remove hindex hother.sound fragmentId
  | clearAll => exact Agree.clearAll index other
  | clear agentId => exact h.clear agentId

theorem Agree.run (h : index.Agree other) (hindex : index.Sound) (hother : other.Plain)
    {calls : List (IndexCall ρ)}
    (hcalls : Along (VectorIndex.step env)
      (fun call index => ¬ Strands env call index ∧ ¬ SplitBatch env call index) calls index)
    (hpromised : ∀ call ∈ calls, Promised env call) :
    (Lib.run (VectorIndex.step env) calls index).Agree
      (Lib.run (VectorIndex.step env) calls other) := by
  induction calls generalizing index other with
  | nil => exact h
  | cons call calls ih =>
      obtain ⟨hcall, hrest⟩ := hcalls
      obtain ⟨hp, hps⟩ := List.forall_mem_cons.mp hpromised
      exact ih (h.step hindex hother hcall.1 hcall.2 hp) (hindex.step env call)
        (hother.step env call) hrest hps

theorem agree_new {backend : IndexBackend} (hnew : new env backend = some index)
    (hpython : new env .python = some other) : index.Agree other ∧ other.Plain := by
  have hsound := sound_new hpython
  cases hpython
  refine ⟨?_, hsound, ⟨rfl, rfl⟩, by rintro x ⟨⟩⟩
  cases backend with
  | auto => cases hnew; exact ⟨rfl, rfl, rfl, rfl⟩
  | python => cases hnew; exact ⟨rfl, rfl, rfl, rfl⟩
  | numpy =>
      rw [new] at hnew
      split at hnew
      · cases hnew
        exact ⟨rfl, rfl, rfl, rfl⟩
      · cases hnew

theorem Agree.ids_eq (h : index.Agree other) (agentId : Option String) :
    index.ids agentId = other.ids agentId := by
  cases agentId with
  | none => exact congrArg Dict.keys h.owner
  | some agentId =>
      rw [VectorIndex.ids, VectorIndex.ids, ids_partition, ids_partition, h.held]

theorem Agree.get_eq (h : index.Agree other) (fragmentId : String) :
    index.get fragmentId = other.get fragmentId := by
  have hpartition (agentId : Option String) (i : VectorIndex ρ) :
      (i.partitions.get? agentId).bind (Partition.get fragmentId) =
        (i.held.get? agentId).bind fun d => d.get? fragmentId := by
    rw [held_get?, Option.bind_map]
    congr 1
    funext q
    exact q.get_eq fragmentId
  show (index.owner.get? fragmentId).bind (fun owner =>
      (index.partitions.get? owner).bind (Partition.get fragmentId)) =
    (other.owner.get? fragmentId).bind fun owner =>
      (other.partitions.get? owner).bind (Partition.get fragmentId)
  simp only [hpartition, h.held, h.owner]

/-- Whatever the backend and whenever it is changed, an index holds the vectors
that a pure Python index holds after the same calls, under the same ids in the
same order, and its searches return the same hits, as long as no batch strands
a dimension or is refused behind its first vectors. -/
theorem backends_agree {σ : Type} [LinearOrder σ] (dot : List ρ → List ρ → σ) (env : IndexEnv ρ)
    (backend : IndexBackend) (index other : VectorIndex ρ) (hnew : new env backend = some index)
    (hpython : new env .python = some other) (calls : List (IndexCall ρ))
    (hcalls : Along (VectorIndex.step env)
      (fun call index => ¬ Strands env call index ∧ ¬ SplitBatch env call index) calls index)
    (hpromised : ∀ call ∈ calls, Promised env call) :
    let after := Lib.run (VectorIndex.step env) calls index
    let after' := Lib.run (VectorIndex.step env) calls other
    after.held = after'.held ∧ (∀ agentId, after.ids agentId = after'.ids agentId) ∧
      (∀ fragmentId, after.get fragmentId = after'.get fragmentId) ∧
      ∀ query topK minScore includeIds agentId,
        after.search dot env query topK minScore includeIds agentId =
          after'.search dot env query topK minScore includeIds agentId := by
  obtain ⟨hagree, hplain⟩ := agree_new hnew hpython
  have hindex := sound_new hnew
  have hrun := hagree.run hindex hplain hcalls hpromised
  refine ⟨hrun.held, hrun.ids_eq, hrun.get_eq, ?_⟩
  intro query topK minScore includeIds agentId
  exact search_eq env (hindex.run env calls) (hplain.sound.run env calls) hrun.held
    hrun.content hrun.dim query topK minScore includeIds agentId

/-- The backend changes at the third vector; an id comes twice in a batch, one
moves to another agent, and a batch of new ids is appended as a block. -/
def mixedCalls : List (IndexCall Nat) :=
  [.add "a" [1, 2] "" none, .addMany ["b", "b"] [[3, 4], [5, 6]] none 0 false,
    .addMany ["c", "d"] [[1, 1], [2, 2]] (some "x") 0 true, .add "a" [7, 8] "text" (some "x"),
    .remove "c", .add "e" [1] "" none, .clear "y"]

def pythonIndex : VectorIndex Nat := new.start false false

theorem backends_agree_mixed :
    Along (VectorIndex.step plainEnv) (fun call index =>
        ¬ Strands plainEnv call index ∧ ¬ SplitBatch plainEnv call index) mixedCalls autoIndex ∧
      (Lib.run (VectorIndex.step plainEnv) mixedCalls autoIndex).held =
        (Lib.run (VectorIndex.step plainEnv) mixedCalls pythonIndex).held := by
  have hcalls : Along (VectorIndex.step plainEnv) (fun call index =>
      ¬ Strands plainEnv call index ∧ ¬ SplitBatch plainEnv call index) mixedCalls autoIndex := by
    decide +kernel
  have hpromised : ∀ call ∈ mixedCalls, Promised plainEnv call := by
    intro call hcall
    cases call with
    | addMany ids embeddings agentId expected normalised => exact fun _ v _ => rfl
    | add | remove | clearAll | clear => trivial
  exact ⟨hcalls, (backends_agree (fun v w => v.length + w.length) plainEnv .auto autoIndex
    pythonIndex rfl rfl mixedCalls hcalls hpromised).1⟩

/-- numpy refuses the whole batch, and the loop has added its first vector. -/
theorem backends_differ :
    ¬ ∀ (env : IndexEnv Nat) (index other : VectorIndex Nat), new env .numpy = some index →
      new env .python = some other → ∀ calls : List (IndexCall Nat),
        (Lib.run (VectorIndex.step env) calls index).ids none =
          (Lib.run (VectorIndex.step env) calls other).ids none := by
  intro h
  have hids := h plainEnv (new.start false true) pythonIndex rfl rfl
    [.addMany ["a", "b"] [[1], [1, 2]] none 0 false]
  revert hids
  decide +kernel

end VectorIndex

end MarkSdk
