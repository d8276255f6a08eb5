import MarkSdk.Index.Held

/-!
What a call that raises leaves behind, and the dimension of an empty index.

`add` checks before it writes. `add_many` appends a block or adds one by one
(then a bad item comes after the good ones before it); on both paths it may
have set the dimension of an empty index before it raises (`Strands`).
-/

namespace MarkSdk

open Lib

variable {ρ : Type}

inductive IndexCall (ρ : Type) where
  | add (fragmentId : String) (embedding : List ρ) (content : String) (agentId : Option String)
  | addMany (ids : List String) (embeddings : List (List ρ)) (agentId : Option String)
      (expected : Nat) (normalised : Bool)
  | remove (fragmentId : String)
  | clearAll
  | clear (agentId : String)

namespace VectorIndex

variable (env : IndexEnv ρ)

def exec : IndexCall ρ → VectorIndex ρ → VectorIndex ρ × Except IndexError Unit
  | .add fragmentId v content agentId, index => index.add env fragmentId v content agentId
  | .addMany ids embeddings agentId expected normalised, index =>
      index.addMany env ids embeddings agentId expected normalised
  | .remove fragmentId, index => (index.remove fragmentId, .ok ())
  | .clearAll, index => (index.clearAll, .ok ())
  | .clear agentId, index => (index.clear agentId, .ok ())

/-- The index after a call, raised or not. -/
def step (call : IndexCall ρ) (index : VectorIndex ρ) : VectorIndex ρ := (index.exec env call).1

theorem Sound.step {index : VectorIndex ρ} (h : index.Sound) (call : IndexCall ρ) :
    (index.step env call).Sound := by
  cases call with
  | add fragmentId v content agentId => exact h.add env fragmentId v content agentId
  | addMany ids embeddings agentId expected normalised =>
      exact h.addMany env ids embeddings agentId expected normalised
  | remove fragmentId => exact h.remove fragmentId
  | clearAll => exact index.sound_clearAll
  | clear agentId => exact h.clear agentId

theorem Sound.run {index : VectorIndex ρ} (h : index.Sound) (calls : List (IndexCall ρ)) :
    (Lib.run (VectorIndex.step env) calls index).Sound :=
  (along_of_forall (P := fun _ _ => True) (fun _ _ _ => trivial) index).invariant
    (fun call _ hs _ => hs.step env call) h

/-! ### What a failure leaves -/

/-- The same vectors under the same ids, whatever the backend. -/
structure SameHeld (index after : VectorIndex ρ) : Prop where
  held : after.held = index.held
  owner : after.owner = index.owner
  content : after.content = index.content

variable {env} {index : VectorIndex ρ}

theorem add_error {fragmentId : String} {v : List ρ} {content : String} {agentId : Option String}
    {e : IndexError} (h : (index.add env fragmentId v content agentId).2 = .error e) :
    (index.add env fragmentId v content agentId).1 = index := by
  obtain ⟨e', he⟩ | ⟨-, -, hok⟩ := index.add_cases env fragmentId v content agentId
  · rw [he]
  · rw [hok] at h
    cases h

/-- The loop stops at the first item that `add` refuses. -/
theorem addEach_error {agentId : Option String} {items : List (String × List ρ)} {e : IndexError}
    (h : (addEach env agentId items index).2 = .error e) :
    ∃ before bad rest, items = before ++ bad :: rest ∧
      (addEach env agentId before index).2 = .ok () ∧
      ((addEach env agentId before index).1.add env bad.1 bad.2 "" agentId).2 = .error e ∧
      (addEach env agentId items index).1 = (addEach env agentId before index).1 := by
  induction items generalizing index with
  | nil => cases h
  | cons item items ih =>
      rw [addEach] at h ⊢
      cases hadd : index.add env item.1 item.2 "" agentId with
      | mk after outcome =>
          rw [hadd] at h
          cases outcome with
          | error e' =>
              have hsame : (index.add env item.1 item.2 "" agentId).1 = index :=
                add_error (e := e') (by rw [hadd])
              rw [hadd] at hsame
              exact ⟨[], item, items, rfl, rfl, by rw [addEach, hadd]; exact h, hsame⟩
          | ok =>
              obtain ⟨before, bad, rest, rfl, hok, hbad, hleft⟩ := ih h
              have hstep : addEach env agentId (item :: before) index =
                  addEach env agentId before after := by rw [addEach, hadd]
              exact ⟨item :: before, bad, rest, rfl, by rw [hstep, hok], by rw [hstep, hbad],
                by rw [hstep]; exact hleft⟩

theorem sameHeld_promoteFor (env : IndexEnv ρ) (index : VectorIndex ρ) (ids : List String)
    (embeddings : List (List ρ)) :
    index.SameHeld (index.promoteFor env ids embeddings) := by
  rw [promoteFor]
  split
  · refine ⟨?_, ?_, ?_⟩
    · rw [held_promote]
      rfl
    · rw [owner_promote]
    · rw [content_promote]
  · exact ⟨rfl, rfl, rfl⟩

theorem dim_promoteFor (ids : List String) (embeddings : List (List ρ)) {dim : Nat}
    (h : index.dim = some dim) : (index.promoteFor env ids embeddings).dim = some dim := by
  rw [promoteFor]
  split
  · rw [dim_promote, h]
    rfl
  · exact h

theorem addBlock_error {ids : List String} {embeddings : List (List ρ)} {agentId : Option String}
    {expected : Nat} {normalised : Bool} {e : IndexError}
    (h : (index.addBlock env ids embeddings agentId expected normalised).2 = .error e) :
    index.SameHeld (index.addBlock env ids embeddings agentId expected normalised).1 ∧
      ∀ dim, index.dim = some dim →
        (index.addBlock env ids embeddings agentId expected normalised).1.dim = some dim := by
  obtain ⟨-, ho⟩ | ⟨-, -, e', ho⟩ | ⟨-, -, -, rows, -, ho⟩ :=
    index.addBlock_cases env ids embeddings agentId expected normalised
  · rw [ho]
    exact ⟨⟨rfl, rfl, rfl⟩, fun dim hdim => hdim⟩
  · rw [ho]
    exact ⟨⟨rfl, rfl, rfl⟩, fun dim hdim => by rw [hdim]; rfl⟩
  · rw [ho] at h
    cases h

/-! ### The dimension -/

/-- The call sets the dimension of an index without one and then raises: the
automatic backend takes it from the batch before numpy or `add` refuses the
batch, and the block path before it refuses empty vectors. -/
def Strands (env : IndexEnv ρ) : IndexCall ρ → VectorIndex ρ → Prop
  | .addMany ids embeddings _ _ _, index =>
      index.dim = none ∧ ids ≠ [] ∧ embeddings.length = ids.length ∧
        if index.auto ∧ index.owner.size + ids.length ≥ env.autoNumpyThreshold then
          width embeddings = 0 ∨
            (index.promoteFor env ids embeddings).fresh ids = true ∧
              homogeneous embeddings = false
        else
          width embeddings = 0 ∧ index.fresh ids = true ∧ homogeneous embeddings = true
  | _, _ => False

instance (env : IndexEnv ρ) :
    (call : IndexCall ρ) → (index : VectorIndex ρ) → Decidable (Strands env call index)
  | .addMany ids embeddings _ _ _, index =>
      inferInstanceAs (Decidable (index.dim = none ∧ ids ≠ [] ∧ embeddings.length = ids.length ∧
        if index.auto ∧ index.owner.size + ids.length ≥ env.autoNumpyThreshold then
          width embeddings = 0 ∨
            (index.promoteFor env ids embeddings).fresh ids = true ∧
              homogeneous embeddings = false
        else
          width embeddings = 0 ∧ index.fresh ids = true ∧ homogeneous embeddings = true))
  | .add _ _ _ _, _ | .remove _, _ | .clearAll, _ | .clear _, _ => isFalse id

/-- There is no dimension exactly when there is no vector. -/
def DimFits (index : VectorIndex ρ) : Prop := index.dim = none ↔ index.owner.rows = []

/-- There is a dimension and a vector. -/
def Filled (index : VectorIndex ρ) : Prop := index.dim ≠ none ∧ index.owner.rows ≠ []

theorem Filled.dimFits (h : index.Filled) : index.DimFits :=
  ⟨fun hdim => absurd hdim h.1, fun howner => absurd howner h.2⟩

theorem filled_put (env : IndexEnv ρ) (h : index.Sound) (hdim : index.dim ≠ none) (fragmentId : String) (v : List ρ)
    (content : String) (agentId : Option String) :
    (index.put env fragmentId v content agentId).Filled := by
  obtain ⟨-, -, howner, hsame⟩ := put_spec env h.partitions fragmentId v content agentId
  refine ⟨by rwa [hsame], ?_⟩
  rw [howner]
  exact List.ne_nil_of_length_pos Dict.size_set_pos

theorem add_filled_or_same (env : IndexEnv ρ) (h : index.Sound) (fragmentId : String) (v : List ρ) (content : String)
    (agentId : Option String) :
    (index.add env fragmentId v content agentId).1 = index ∨
      (index.add env fragmentId v content agentId).1.Filled := by
  obtain ⟨e, he⟩ | ⟨-, -, hok⟩ := index.add_cases env fragmentId v content agentId
  · exact .inl (by rw [he])
  · rw [hok]
    exact .inr (filled_put env (h.withDim _) (Option.some_ne_none _) _ _ _ _)

theorem addEach_filled_or_same (env : IndexEnv ρ) (h : index.Sound) (agentId : Option String)
    (items : List (String × List ρ)) :
    (addEach env agentId items index).1 = index ∨ (addEach env agentId items index).1.Filled := by
  induction items generalizing index with
  | nil => exact .inl rfl
  | cons item items ih =>
      have hone := add_filled_or_same env h item.1 item.2 "" agentId
      have hsound := h.add env item.1 item.2 "" agentId
      rw [addEach]
      cases hadd : index.add env item.1 item.2 "" agentId with
      | mk after outcome =>
          rw [hadd] at hone hsound
          cases outcome with
          | error e => exact hone
          | ok =>
              rcases ih hsound with hsame | hfilled
              · simp only [hsame]
                exact hone
              · exact .inr hfilled

theorem filled_putBlock (hdim : index.dim ≠ none) {ids : List String} (hids : ids ≠ [])
    (rows : List (List ρ)) (agentId : Option String) (expected : Nat) :
    (index.putBlock ids rows agentId expected).Filled := by
  refine ⟨hdim, fun howner => ?_⟩
  obtain ⟨x, hx⟩ := List.exists_mem_of_ne_nil ids hids
  have hget : (index.putBlock ids rows agentId expected).owner.get? x = some agentId := by
    show (index.owner.updateAll _).get? x = _
    rw [Dict.get?_updateAll_const, if_pos hx]
  rw [Dict.get?_eq_some_iff, howner] at hget
  cases hget

/-- With a dimension and a vector a batch leaves both. -/
theorem filled_addMany (hsound : index.Sound) (h : index.Filled) (ids : List String)
    (embeddings : List (List ρ)) (agentId : Option String) (expected : Nat) (normalised : Bool) :
    (index.addMany env ids embeddings agentId expected normalised).1.Filled := by
  obtain ⟨dim, hdim⟩ := Option.ne_none_iff_exists'.mp h.1
  have hstarted := hsound.promoteFor env ids embeddings
  have howner := (sameHeld_promoteFor env index ids embeddings).owner
  have hfilled : (index.promoteFor env ids embeddings).Filled := by
    refine ⟨?_, by rw [howner]; exact h.2⟩
    rw [dim_promoteFor ids embeddings hdim]
    exact Option.some_ne_none dim
  rw [addMany]
  split
  · exact h
  · rename_i hids
    split
    · exact h
    · simp only
      split
      · obtain ⟨-, ho⟩ | ⟨-, -, e, ho⟩ | ⟨-, -, -, rows, -, ho⟩ :=
          (index.promoteFor env ids embeddings).addBlock_cases env ids embeddings agentId expected
            normalised
        · rw [ho]
          exact hfilled
        · rw [ho]
          exact ⟨Option.some_ne_none _, hfilled.2⟩
        · rw [ho]
          exact filled_putBlock (Option.some_ne_none _) hids rows agentId expected
      · rcases addEach_filled_or_same env hstarted agentId (ids.zip embeddings) with
          hsame | hafter
        · rw [hsame]
          exact hfilled
        · exact hafter

/-- The first vector of a batch, of a width above zero, is added to an index
that got its dimension from it. -/
theorem filled_addEach_of_width (h : index.Sound) {ids : List String} {embeddings : List (List ρ)}
    (hids : ids ≠ []) (hlength : embeddings.length = ids.length) (hwidth : width embeddings ≠ 0)
    (hdim : index.dim = some (width embeddings)) (agentId : Option String) :
    (addEach env agentId (ids.zip embeddings) index).1.Filled := by
  obtain ⟨x, ids, rfl⟩ := List.exists_cons_of_ne_nil hids
  obtain ⟨v, embeddings, rfl⟩ := List.exists_cons_of_length_eq_add_one hlength
  have hv : width (v :: embeddings) = v.length := rfl
  rw [hv] at hwidth hdim
  have hadd : index.add env x v "" agentId =
      (put env { index with dim := some v.length } x (env.normalize v) "" agentId, .ok ()) := by
    have hnormal := env.length_normalize v
    have hne : env.normalize v ≠ [] := List.ne_nil_of_length_pos (by omega)
    rw [add]
    simp only [hne, if_false, hdim, hnormal, ne_eq, not_true_eq_false]
    rw [← hdim]
  have hput := filled_put env (h.withDim (some v.length)) (Option.some_ne_none v.length) x
    (env.normalize v) "" agentId
  have hsound := (h.withDim (some v.length)).put env x (env.normalize v) "" agentId
  rw [List.zip_cons_cons, addEach, hadd]
  rcases addEach_filled_or_same env hsound agentId (ids.zip embeddings) with hsame | hafter
  · simp only [hsame]
    exact hput
  · exact hafter

theorem dimFits_addMany (hsound : index.Sound) (h : index.DimFits) {ids : List String}
    {embeddings : List (List ρ)} {agentId : Option String} {expected : Nat} {normalised : Bool}
    (hstrands : ¬ Strands env (.addMany ids embeddings agentId expected normalised) index) :
    (index.addMany env ids embeddings agentId expected normalised).1.DimFits := by
  cases hdim : index.dim with
  | some dim =>
      have hfilled : index.Filled := by
        refine ⟨by rw [hdim]; exact Option.some_ne_none dim, fun howner => ?_⟩
        rw [h.mpr howner] at hdim
        cases hdim
      exact (filled_addMany hsound hfilled ids embeddings agentId expected normalised).dimFits
  | none =>
      have hstarted := hsound.promoteFor env ids embeddings
      rw [addMany]
      split
      · exact h
      · rename_i hids
        split
        · exact h
        · rename_i hlength
          have hlength := Decidable.not_not.mp hlength
          by_cases hpromotes :
              index.auto = true ∧ index.owner.size + ids.length ≥ env.autoNumpyThreshold
          · -- the dimension is that of the batch by now
            have hgood : ¬ (width embeddings = 0 ∨
                (index.promoteFor env ids embeddings).fresh ids = true ∧
                  homogeneous embeddings = false) := by
              intro hbad
              refine hstrands ⟨hdim, hids, hlength, ?_⟩
              rw [if_pos hpromotes]
              exact hbad
            rw [not_or] at hgood
            have hset : (index.promoteFor env ids embeddings).dim = some (width embeddings) := by
              rw [promoteFor, if_pos hpromotes, dim_promote, hdim]
              rfl
            simp only
            split
            · rename_i hfresh
              obtain ⟨hbad, -⟩ | ⟨-, hbad, -⟩ | ⟨-, -, -, rows, -, ho⟩ :=
                (index.promoteFor env ids embeddings).addBlock_cases env ids embeddings agentId
                  expected normalised
              · exact absurd ⟨hfresh, hbad⟩ hgood.2
              · obtain hzero | ⟨dim, hother, hne⟩ := hbad
                · exact absurd hzero hgood.1
                · rw [hset] at hother
                  exact absurd (Option.some.inj hother) hne
              · rw [ho]
                exact (filled_putBlock (Option.some_ne_none _) hids rows agentId expected).dimFits
            · exact (filled_addEach_of_width hstarted hids hlength hgood.1 hset agentId).dimFits
          · have hsame : index.promoteFor env ids embeddings = index := if_neg hpromotes
            have hgood : ¬ (width embeddings = 0 ∧ index.fresh ids = true ∧
                homogeneous embeddings = true) := by
              intro hbad
              refine hstrands ⟨hdim, hids, hlength, ?_⟩
              rw [if_neg hpromotes]
              exact hbad
            rw [hsame]
            simp only
            split
            · rename_i hfresh
              obtain ⟨-, ho⟩ | ⟨hhomogeneous, hbad, -⟩ | ⟨-, -, -, rows, -, ho⟩ :=
                index.addBlock_cases env ids embeddings agentId expected normalised
              · rw [ho]
                exact h
              · obtain hzero | ⟨dim, hother, -⟩ := hbad
                · exact absurd ⟨hzero, hfresh, hhomogeneous⟩ hgood
                · rw [hdim] at hother
                  cases hother
              · rw [ho]
                exact (filled_putBlock (Option.some_ne_none _) hids rows agentId expected).dimFits
            · rcases addEach_filled_or_same env hsound agentId (ids.zip embeddings) with
                hkept | hafter
              · rw [hkept]
                exact h
              · exact hafter.dimFits

/-- What takes ids out clears the dimension with the last one. -/
theorem dimFits_of_shrunk {after : VectorIndex ρ} (h : index.DimFits)
    (howner : index.owner.rows = [] → after.owner.rows = [])
    (hdim : after.dim = if after.owner.size = 0 then none else index.dim) : after.DimFits := by
  rw [DimFits, hdim]
  split
  · rename_i hsize
    exact ⟨fun _ => List.eq_nil_of_length_eq_zero hsize, fun _ => rfl⟩
  · rename_i hsize
    refine ⟨fun hnone => howner (h.mp hnone), fun hempty => ?_⟩
    exact absurd (by rw [Dict.size, hempty]; rfl) hsize

theorem DimFits.step (hsound : index.Sound) (h : index.DimFits) {call : IndexCall ρ}
    (hstrands : ¬ Strands env call index) : (index.step env call).DimFits := by
  cases call with
  | add fragmentId v content agentId =>
      rcases add_filled_or_same env hsound fragmentId v content agentId with hsame | hfilled
      · show (index.add env fragmentId v content agentId).1.DimFits
        rw [hsame]
        exact h
      · exact hfilled.dimFits
  | addMany ids embeddings agentId expected normalised => exact dimFits_addMany hsound h hstrands
  | clearAll => exact ⟨fun _ => rfl, fun _ => rfl⟩
  | remove fragmentId =>
      show (index.remove fragmentId).DimFits
      cases hown : index.owner.get? fragmentId with
      | none =>
          rw [remove, hown]
          exact h
      | some agentId =>
          let popped : VectorIndex ρ :=
            { index with
              owner := index.owner.pop fragmentId
              content := index.content.pop fragmentId }
          obtain ⟨howner, -, hdim, -⟩ := popped.fields_partitionRemove agentId fragmentId
          rw [remove, hown]
          refine dimFits_of_shrunk h (fun hempty => ?_) ?_
          · show (popped.partitionRemove agentId fragmentId).owner.rows = []
            rw [howner, Dict.rows_pop, hempty]
            rfl
          · show (if _ then none else (popped.partitionRemove agentId fragmentId).dim) = _
            rw [hdim]
  | clear agentId =>
      show (index.clear agentId).DimFits
      rw [clear]
      cases hq : index.partitions.get? (some agentId) with
      | none => exact h
      | some q =>
          refine dimFits_of_shrunk h (fun hempty => ?_) rfl
          rw [List.eq_nil_iff_forall_not_mem]
          rintro ⟨x, a⟩ hmem
          have hget := Dict.get?_eq_some_iff.mpr hmem
          rw [Dict.get?_foldl_pop] at hget
          split at hget
          · cases hget
          · rw [Dict.get?_eq_some_iff, hempty] at hget
            cases hget

theorem dimFits_run (hsound : index.Sound) (h : index.DimFits) {calls : List (IndexCall ρ)}
    (hcalls : Along (VectorIndex.step env) (fun call index => ¬ Strands env call index) calls
      index) : (Lib.run (VectorIndex.step env) calls index).DimFits := by
  have hrun := hcalls.invariant (I := fun index => index.Sound ∧ index.DimFits)
    (fun call _ hi hc => ⟨hi.1.step env call, DimFits.step hi.1 hi.2 hc⟩) ⟨hsound, h⟩
  exact hrun.2

/-- A refused `add` changes nothing. A refused `add_many` changes no vector on
the block path, and on the other path it leaves what adding the items before
the first bad one leaves; a dimension that is there stays. As long as no call
strands a dimension, there is one exactly when the index holds a vector. -/
theorem failed_insertions (env : IndexEnv ρ) :
    (∀ (index : VectorIndex ρ) fragmentId v content agentId e,
      (index.add env fragmentId v content agentId).2 = .error e →
        (index.add env fragmentId v content agentId).1 = index) ∧
    (∀ (index : VectorIndex ρ) ids embeddings agentId expected normalised e,
      (index.addMany env ids embeddings agentId expected normalised).2 = .error e →
        let after := (index.addMany env ids embeddings agentId expected normalised).1
        let started := index.promoteFor env ids embeddings
        if embeddings.length ≠ ids.length then after = index
        else if started.fresh ids then
          index.SameHeld after ∧ ∀ dim, index.dim = some dim → after.dim = some dim
        else
          index.SameHeld started ∧ (∀ dim, index.dim = some dim → started.dim = some dim) ∧
            ∃ before bad rest, ids.zip embeddings = before ++ bad :: rest ∧
              (addEach env agentId before started).2 = .ok () ∧
              ((addEach env agentId before started).1.add env bad.1 bad.2 "" agentId).2 =
                .error e ∧
              after = (addEach env agentId before started).1) ∧
    ∀ backend index, new env backend = some index → ∀ calls : List (IndexCall ρ),
      Along (VectorIndex.step env) (fun call index => ¬ Strands env call index) calls index →
        let after := Lib.run (VectorIndex.step env) calls index
        after.dim = none ↔ ∀ agentId fragmentId, ¬ Has after.held agentId fragmentId := by
  refine ⟨fun index fragmentId v content agentId e h => add_error h, ?_, ?_⟩
  · intro index ids embeddings agentId expected normalised e h after started
    have hids : ids ≠ [] := by
      intro hempty
      rw [addMany, if_pos hempty] at h
      cases h
    split
    · rename_i hlength
      show (index.addMany env ids embeddings agentId expected normalised).1 = index
      rw [addMany, if_neg hids, if_pos hlength]
    · rename_i hlength
      have hcall : index.addMany env ids embeddings agentId expected normalised =
          if started.fresh ids then started.addBlock env ids embeddings agentId expected normalised
          else addEach env agentId (ids.zip embeddings) started := by
        rw [addMany, if_neg hids, if_neg hlength]
      have hsame : index.SameHeld started := sameHeld_promoteFor env index ids embeddings
      have hdim {dim : Nat} (hd : index.dim = some dim) : started.dim = some dim :=
        dim_promoteFor ids embeddings hd
      have hafter : after = (index.addMany env ids embeddings agentId expected normalised).1 := rfl
      split
      · rename_i hfresh
        rw [hcall, if_pos hfresh] at h hafter
        obtain ⟨hheld, hstays⟩ := addBlock_error h
        rw [← hafter] at hheld hstays
        exact ⟨⟨hheld.held.trans hsame.held, hheld.owner.trans hsame.owner,
          hheld.content.trans hsame.content⟩, fun dim hd => hstays dim (hdim hd)⟩
      · rename_i hfresh
        rw [hcall, if_neg hfresh] at h hafter
        obtain ⟨before, bad, rest, hitems, hok, hbad, hleft⟩ := addEach_error h
        rw [← hafter] at hleft
        exact ⟨hsame, fun dim hd => hdim hd, before, bad, rest, hitems, hok, hbad, hleft⟩
  · intro backend index hnew calls hcalls
    have hsound := sound_new hnew
    have hfits : index.DimFits := by
      have hempty : index.dim = none ∧ index.owner.rows = [] := by
        cases backend with
        | auto => cases hnew; exact ⟨rfl, rfl⟩
        | python => cases hnew; exact ⟨rfl, rfl⟩
        | numpy =>
            rw [new] at hnew
            split at hnew
            · cases hnew
              exact ⟨rfl, rfl⟩
            · cases hnew
      exact ⟨fun _ => hempty.2, fun _ => hempty.1⟩
    have howned := (hsound.run env calls).owned
    intro after
    have hafter : after.DimFits := dimFits_run hsound hfits hcalls
    rw [DimFits] at hafter
    rw [hafter]
    constructor
    · intro howner agentId x hhas
      rw [← howned.owner, Dict.get?_eq_some_iff] at hhas
      rw [show (Lib.run (VectorIndex.step env) calls index).owner.rows = [] from howner] at hhas
      cases hhas
    · intro hnone
      rw [List.eq_nil_iff_forall_not_mem]
      rintro ⟨x, agentId⟩ hmem
      exact hnone agentId x ((howned.owner x agentId).mp (Dict.get?_eq_some_iff.mpr hmem))

/-- Vectors are not scaled here, and the backend changes at the third vector. -/
def plainEnv : IndexEnv Nat := ⟨true, 3, id, fun _ => rfl⟩

def autoIndex : VectorIndex Nat := new.start true false

/-- Two good items before an empty one, and later a batch that numpy takes. -/
def insertionCalls : List (IndexCall Nat) :=
  [.addMany ["a", "b"] [[1], [2]] none 0 false, .add "c" [1, 2] "" none,
    .addMany ["a", "d"] [[3], []] none 0 false, .remove "a",
    .addMany ["e", "f"] [[1], [1, 2]] none 0 false, .remove "b"]

theorem failed_insertions_batch :
    Along (VectorIndex.step plainEnv) (fun call index => ¬ Strands plainEnv call index)
        insertionCalls autoIndex ∧
      ((Lib.run (VectorIndex.step plainEnv) insertionCalls autoIndex).dim = none ↔
        ∀ agentId fragmentId,
          ¬ Has (Lib.run (VectorIndex.step plainEnv) insertionCalls autoIndex).held agentId
            fragmentId) := by
  have hcalls : Along (VectorIndex.step plainEnv) (fun call index => ¬ Strands plainEnv call index)
      insertionCalls autoIndex := by decide +kernel
  exact ⟨hcalls, (failed_insertions plainEnv).2.2 .auto autoIndex rfl insertionCalls hcalls⟩

/-- A bad item comes after a good one, and a batch of empty vectors strands
the dimension of an empty index. -/
theorem addMany_not_atomic :
    (¬ ∀ (env : IndexEnv Nat) (index : VectorIndex Nat) ids embeddings agentId expected normalised e,
        (index.addMany env ids embeddings agentId expected normalised).2 = .error e →
          index.SameHeld (index.addMany env ids embeddings agentId expected normalised).1) ∧
      ¬ ∀ (env : IndexEnv Nat) backend index, new env backend = some index →
        ∀ calls : List (IndexCall Nat),
          (Lib.run (VectorIndex.step env) calls index).dim = none ↔
            ∀ agentId fragmentId,
              ¬ Has (Lib.run (VectorIndex.step env) calls index).held agentId fragmentId := by
  constructor
  · intro h
    have hsame := h plainEnv autoIndex ["a", "b"] [[1], []] none 0 false .emptyEmbedding rfl
    have howner := congrArg Dict.keys hsame.owner
    revert howner
    decide +kernel
  · intro h
    have hfits := h plainEnv .auto autoIndex rfl [.addMany ["a", "b", "c"] [[], [], []] none 0 false]
    have hdim := hfits.mpr fun agentId x hhas => by
      obtain ⟨d, hd, -⟩ := hhas
      cases hd
    revert hdim
    decide +kernel

end VectorIndex

end MarkSdk
