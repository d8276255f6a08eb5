import Mathlib.Data.List.Nodup
import Mathlib.Logic.Relation

/-!
Lineages of versions.

A version knows the ids of all earlier versions, oldest first, and has a link
to the next version once it has been revised. The versions that go back to the
same first id are a lineage. `Lineages` is the invariant that no lineage forks:
starting a lineage, revising its last version and removing a version that no
link leads to keep it. From it follow the single last version, links without a
cycle, and histories that list what is left of a lineage in its order.
-/

namespace MarkSdk.Lib

/-- One version. The versions of a lineage have one owner. -/
structure Version (ι κ : Type) where
  id : ι
  owner : κ
  history : List ι
  next : Option ι
  deriving DecidableEq, Repr

namespace Version

variable {ι κ : Type}

/-- The history with the version itself at the end. -/
def line (v : Version ι κ) : List ι := v.history ++ [v.id]

/-- The first id that the version goes back to. -/
def root (v : Version ι κ) : ι := v.history.headD v.id

theorem head?_line (v : Version ι κ) : v.line.head? = some v.root := by
  unfold line root
  cases v.history <;> rfl

/-- A version made after another goes back to the same id. -/
theorem root_eq_of_prefix {v w : Version ι κ} (h : v.line <+: w.line) : w.root = v.root := by
  obtain ⟨l, hl⟩ := h
  have hhead : w.line.head? = some v.root := by
    rw [← hl, List.head?_append, head?_line, Option.some_or]
  rw [head?_line] at hhead
  exact Option.some.inj hhead

theorem history_prefix_line (v : Version ι κ) : v.history <+: v.line := List.prefix_append _ _

theorem id_mem_line (v : Version ι κ) : v.id ∈ v.line :=
  List.mem_append_right _ (List.mem_singleton_self _)

/-- What comes before a version at the end of a line is in its history, or
is the version. -/
theorem prefix_line_iff {v : Version ι κ} {l : List ι} :
    l <+: v.line ↔ l = v.line ∨ l <+: v.history := List.prefix_concat_iff

end Version

variable {ι κ : Type}

/-- No lineage forks. -/
structure Lineages (vs : List (Version ι κ)) : Prop where
  distinct : (vs.map Version.id).Nodup
  nodup : ∀ v ∈ vs, v.line.Nodup
  next : ∀ v ∈ vs, ∀ n, v.next = some n →
    ∃ w ∈ vs, w.id = n ∧ w.owner = v.owner ∧ w.history = v.line
  linear : ∀ v ∈ vs, ∀ w ∈ vs, v.root = w.root → v.line <+: w.line ∨ w.line <+: v.line
  before : ∀ v ∈ vs, ∀ w ∈ vs, v.id ∈ w.history → v.line <+: w.history
  revised : ∀ v ∈ vs, ∀ w ∈ vs, v.line <+: w.history → v.next.isSome = true

/-- The id is new: no version has it or had a predecessor with it. -/
def FreshId (vs : List (Version ι κ)) (id : ι) : Prop := ∀ v ∈ vs, id ∉ v.line

/-- The version that is revised, with its link. -/
def revisedTo [DecidableEq ι] (old new : ι) (v : Version ι κ) : Version ι κ :=
  if v.id = old then { v with next := some new } else v

section Operations

variable {vs : List (Version ι κ)} {v w old : Version ι κ} {id : ι} {owner : κ}

theorem Lineages.nil : Lineages ([] : List (Version ι κ)) :=
  ⟨List.nodup_nil, nofun, nofun, nofun, nofun, nofun⟩

theorem Lineages.eq_of_id (h : Lineages vs) (hv : v ∈ vs) (hw : w ∈ vs) (hid : v.id = w.id) :
    v = w :=
  List.inj_on_of_nodup_map h.distinct hv hw hid

theorem Lineages.eq_of_line (h : Lineages vs) (hv : v ∈ vs) (hw : w ∈ vs) (hline : v.line = w.line) :
    v = w := by
  refine h.eq_of_id hv hw ?_
  have hlast := congrArg List.getLast? hline
  simpa [Version.line] using hlast

/-- A lineage begins. -/
theorem Lineages.start (h : Lineages vs) (hfresh : FreshId vs id) :
    Lineages (vs ++ [⟨id, owner, [], none⟩]) := by
  have hmem : ∀ v, v ∈ vs ++ [⟨id, owner, [], none⟩] ↔ v ∈ vs ∨ v = ⟨id, owner, [], none⟩ := by
    intro v
    rw [List.mem_append, List.mem_singleton]
  constructor
  · rw [List.map_append, List.map_singleton]
    refine h.distinct.append (List.nodup_singleton _) ?_
    rw [List.disjoint_singleton]
    intro hin
    obtain ⟨v, hv, rfl⟩ := List.mem_map.mp hin
    exact hfresh v hv v.id_mem_line
  · intro v hv
    rcases (hmem v).mp hv with hv | rfl
    · exact h.nodup v hv
    · exact List.nodup_singleton id
  · intro v hv n hn
    rcases (hmem v).mp hv with hv | rfl
    · obtain ⟨w, hw, hw'⟩ := h.next v hv n hn
      exact ⟨w, (hmem w).mpr (.inl hw), hw'⟩
    · cases hn
  · -- the new id is the root of nothing else
    have hroot : ∀ v ∈ vs, v.root ≠ id := by
      intro v hv hid
      refine hfresh v hv (List.mem_of_mem_head? ?_)
      rw [v.head?_line, hid]
      rfl
    intro v hv w hw hsame
    rcases (hmem v).mp hv with hv | rfl <;> rcases (hmem w).mp hw with hw | rfl
    · exact h.linear v hv w hw hsame
    · exact absurd hsame (hroot v hv)
    · exact absurd hsame.symm (hroot w hw)
    · exact .inl (List.prefix_refl _)
  · intro v hv w hw hin
    rcases (hmem w).mp hw with hw | rfl
    · rcases (hmem v).mp hv with hv | rfl
      · exact h.before v hv w hw hin
      · exact absurd (w.history_prefix_line.subset hin) (hfresh w hw)
    · cases hin
  · intro v hv w hw hbefore
    rcases (hmem w).mp hw with hw | rfl
    · rcases (hmem v).mp hv with hv | rfl
      · exact h.revised v hv w hw hbefore
      · have hin : id ∈ w.history := hbefore.subset (Version.id_mem_line _)
        exact absurd (w.history_prefix_line.subset hin) (hfresh w hw)
    · have hin := hbefore.subset v.id_mem_line
      cases hin

/-- A version that no link leads to is removed. -/
theorem Lineages.remove (h : Lineages vs) {p : Version ι κ → Bool}
    (hp : ∀ v ∈ vs, p v = true → ∀ w ∈ vs, v.next = some w.id → p w = true) :
    Lineages (vs.filter p) := by
  have hmem : ∀ {v}, v ∈ vs.filter p → v ∈ vs := fun hv => (List.mem_filter.mp hv).1
  refine ⟨h.distinct.sublist (List.filter_sublist.map _), fun v hv => h.nodup v (hmem hv), ?_,
    fun v hv w hw => h.linear v (hmem hv) w (hmem hw),
    fun v hv w hw => h.before v (hmem hv) w (hmem hw),
    fun v hv w hw => h.revised v (hmem hv) w (hmem hw)⟩
  intro v hv n hn
  obtain ⟨w, hw, rfl, hrest⟩ := h.next v (hmem hv) n hn
  exact ⟨w, List.mem_filter.mpr ⟨hw, hp v (hmem hv) (List.mem_filter.mp hv).2 w hw hn⟩, rfl, hrest⟩

section Revise

variable [DecidableEq ι]

@[simp] theorem revisedTo_id (old new : ι) (v : Version ι κ) : (revisedTo old new v).id = v.id := by
  unfold revisedTo
  split <;> rfl

@[simp] theorem revisedTo_owner (old new : ι) (v : Version ι κ) :
    (revisedTo old new v).owner = v.owner := by
  unfold revisedTo
  split <;> rfl

@[simp] theorem revisedTo_history (old new : ι) (v : Version ι κ) :
    (revisedTo old new v).history = v.history := by
  unfold revisedTo
  split <;> rfl

@[simp] theorem revisedTo_line (old new : ι) (v : Version ι κ) :
    (revisedTo old new v).line = v.line := by
  simp [Version.line]

@[simp] theorem revisedTo_root (old new : ι) (v : Version ι κ) :
    (revisedTo old new v).root = v.root := by
  simp [Version.root]

/-- The last version of a lineage is revised. -/
theorem Lineages.revise (h : Lineages vs) (hold : old ∈ vs) (hlast : old.next = none)
    (hfresh : FreshId vs id) :
    Lineages (vs.map (revisedTo old.id id) ++ [⟨id, old.owner, old.line, none⟩]) := by
  have hmem : ∀ v, v ∈ vs.map (revisedTo old.id id) ++ [⟨id, old.owner, old.line, none⟩] ↔
      (∃ u ∈ vs, revisedTo old.id id u = v) ∨ v = ⟨id, old.owner, old.line, none⟩ := by
    intro v
    rw [List.mem_append, List.mem_singleton, List.mem_map]
  -- nothing was made after the version that is revised
  have hnone : ∀ u ∈ vs, old.line <+: u.line → u = old := by
    intro u hu hbefore
    rcases Version.prefix_line_iff.mp hbefore with hsame | hlater
    · exact (h.eq_of_line hold hu hsame).symm
    · have := h.revised old hold u hu hlater
      rw [hlast] at this
      cases this
  constructor
  · rw [List.map_append, List.map_singleton, List.map_map]
    have hids : Version.id ∘ revisedTo old.id id = (Version.id : Version ι κ → ι) := by
      funext u
      exact revisedTo_id old.id id u
    rw [hids]
    refine h.distinct.append (List.nodup_singleton _) ?_
    rw [List.disjoint_singleton]
    intro hin
    obtain ⟨u, hu, rfl⟩ := List.mem_map.mp hin
    exact hfresh u hu u.id_mem_line
  · intro v hv
    rcases (hmem v).mp hv with ⟨u, hu, rfl⟩ | rfl
    · rw [revisedTo_line]
      exact h.nodup u hu
    · refine (h.nodup old hold).append (List.nodup_singleton _) ?_
      rw [List.disjoint_singleton]
      exact hfresh old hold
  · intro v hv n hn
    rcases (hmem v).mp hv with ⟨u, hu, rfl⟩ | rfl
    · by_cases hu' : u.id = old.id
      · obtain rfl := h.eq_of_id hu hold hu'
        rw [revisedTo, if_pos rfl] at hn
        refine ⟨_, (hmem _).mpr (.inr rfl), Option.some.inj hn, ?_, ?_⟩
        · rw [revisedTo_owner]
        · rw [revisedTo_line]
      · rw [revisedTo, if_neg hu'] at hn
        obtain ⟨w, hw, hid, howner, hhistory⟩ := h.next u hu n hn
        refine ⟨revisedTo old.id id w, (hmem _).mpr (.inl ⟨w, hw, rfl⟩), ?_, ?_, ?_⟩
        · rw [revisedTo_id, hid]
        · rw [revisedTo_owner, revisedTo_owner, howner]
        · rw [revisedTo_history, revisedTo_line, hhistory]
    · cases hn
  · have hnew : ∀ u ∈ vs, u.root = old.root → u.line <+: old.line ++ [id] := by
      intro u hu hroot
      rcases h.linear u hu old hold hroot with hbefore | hafter
      · exact hbefore.trans (List.prefix_append _ _)
      · rw [hnone u hu hafter]
        exact List.prefix_append _ _
    have hnewRoot : (⟨id, old.owner, old.line, none⟩ : Version ι κ).root = old.root :=
      Version.root_eq_of_prefix (w := ⟨id, old.owner, old.line, none⟩) (List.prefix_append _ _)
    intro v hv w hw hroot
    rcases (hmem v).mp hv with ⟨u, hu, rfl⟩ | rfl <;> rcases (hmem w).mp hw with ⟨u', hu', rfl⟩ | rfl
    · rw [revisedTo_root, revisedTo_root] at hroot
      rw [revisedTo_line, revisedTo_line]
      exact h.linear u hu u' hu' hroot
    · rw [revisedTo_root, hnewRoot] at hroot
      rw [revisedTo_line]
      exact .inl (hnew u hu hroot)
    · rw [revisedTo_root, hnewRoot] at hroot
      rw [revisedTo_line]
      exact .inr (hnew u' hu' hroot.symm)
    · exact .inl (List.prefix_refl _)
  · intro v hv w hw hin
    rcases (hmem w).mp hw with ⟨u', hu', rfl⟩ | rfl
    · rw [revisedTo_history] at hin ⊢
      rcases (hmem v).mp hv with ⟨u, hu, rfl⟩ | rfl
      · rw [revisedTo_id] at hin
        rw [revisedTo_line]
        exact h.before u hu u' hu' hin
      · exact absurd (u'.history_prefix_line.subset hin) (hfresh u' hu')
    · rcases (hmem v).mp hv with ⟨u, hu, rfl⟩ | rfl
      · rw [revisedTo_id] at hin
        rw [revisedTo_line]
        show u.line <+: old.line
        rcases List.mem_append.mp (show u.id ∈ old.history ++ [old.id] from hin) with hin | hin
        · exact (h.before u hu old hold hin).trans old.history_prefix_line
        · obtain rfl := h.eq_of_id hu hold (List.mem_singleton.mp hin)
          exact List.prefix_refl _
      · exact absurd hin (hfresh old hold)
  · intro v hv w hw hbefore
    rcases (hmem v).mp hv with ⟨u, hu, rfl⟩ | rfl
    · rw [revisedTo_line] at hbefore
      by_cases hu' : u.id = old.id
      · rw [revisedTo, if_pos hu']
        rfl
      · rw [revisedTo, if_neg hu']
        rcases (hmem w).mp hw with ⟨u', hu₁, rfl⟩ | rfl
        · rw [revisedTo_history] at hbefore
          exact h.revised u hu u' hu₁ hbefore
        · rcases Version.prefix_line_iff.mp hbefore with hsame | hlater
          · exact absurd (congrArg Version.id (h.eq_of_line hu hold hsame)) hu'
          · exact h.revised u hu old hold hlater
    · have hin : id ∈ w.history := hbefore.subset (Version.id_mem_line _)
      rcases (hmem w).mp hw with ⟨u', hu', rfl⟩ | rfl
      · rw [revisedTo_history] at hin
        exact absurd (u'.history_prefix_line.subset hin) (hfresh u' hu')
      · exact absurd hin (hfresh old hold)

end Revise

end Operations

/-! ### What follows -/

section Consequences

variable {vs : List (Version ι κ)} {v w : Version ι κ}

/-- The link of one version leads to the other. -/
def Version.Leads (vs : List (Version ι κ)) (v w : Version ι κ) : Prop :=
  v ∈ vs ∧ w ∈ vs ∧ v.next = some w.id

theorem Lineages.history_of_leads (h : Lineages vs) (hlink : Version.Leads vs v w) :
    w.history = v.line := by
  obtain ⟨hv, hw, hnext⟩ := hlink
  obtain ⟨u, hu, hid, -, hhistory⟩ := h.next v hv w.id hnext
  rw [← h.eq_of_id hu hw hid, hhistory]

/-- A link leads on in the lineage. -/
theorem Lineages.next_root (h : Lineages vs) (hv : v ∈ vs) {n : ι} (hn : v.next = some n) :
    ∃ w ∈ vs, w.id = n ∧ w.root = v.root := by
  obtain ⟨w, hw, hid, -, hhistory⟩ := h.next v hv n hn
  refine ⟨w, hw, hid, Version.root_eq_of_prefix ?_⟩
  rw [← hhistory]
  exact w.history_prefix_line

theorem Lineages.length_lt (h : Lineages vs) (hreach : Relation.TransGen (Version.Leads vs) v w) :
    v.history.length < w.history.length := by
  have hstep : ∀ {a b}, Version.Leads vs a b → a.history.length < b.history.length := by
    intro a b hlink
    rw [h.history_of_leads hlink, Version.line, List.length_append, List.length_singleton]
    omega
  induction hreach with
  | single hlink => exact hstep hlink
  | tail _ hlink ih =>
      have := hstep hlink
      omega

/-- No version is reached from itself. -/
theorem Lineages.acyclic (h : Lineages vs) (v : Version ι κ) :
    ¬ Relation.TransGen (Version.Leads vs) v v :=
  fun hreach => Nat.lt_irrefl _ (h.length_lt hreach)

theorem exists_longest (vs : List (Version ι κ)) : ∃ n, ∀ w ∈ vs, w.history.length ≤ n := by
  induction vs with
  | nil => exact ⟨0, nofun⟩
  | cons v vs ih =>
      obtain ⟨n, hn⟩ := ih
      refine ⟨max v.history.length n, fun w hw => ?_⟩
      rcases List.mem_cons.mp hw with rfl | hw
      · omega
      · have := hn w hw
        omega

/-- Of a lineage with a version, one is the last. -/
theorem Lineages.exists_last (h : Lineages vs) (hv : v ∈ vs) :
    ∃ w ∈ vs, w.root = v.root ∧ w.next = none := by
  -- the one with the longest history
  obtain ⟨n, hn⟩ := exists_longest vs
  generalize hk : n - v.history.length = k
  induction k generalizing v with
  | zero =>
      cases hnext : v.next with
      | none => exact ⟨v, hv, rfl, hnext⟩
      | some next =>
          obtain ⟨w, hw, hid, -, hhistory⟩ := h.next v hv next hnext
          have hlong := hn w hw
          rw [hhistory, Version.line, List.length_append, List.length_singleton] at hlong
          omega
  | succ k ih =>
      cases hnext : v.next with
      | none => exact ⟨v, hv, rfl, hnext⟩
      | some next =>
          obtain ⟨w, hw, hid, -, hhistory⟩ := h.next v hv next hnext
          obtain ⟨u, hu, huroot, hulast⟩ := ih hw (by
            rw [hhistory, Version.line, List.length_append, List.length_singleton]
            omega)
          refine ⟨u, hu, huroot.trans (Version.root_eq_of_prefix ?_), hulast⟩
          rw [← hhistory]
          exact w.history_prefix_line

/-- A version of the lineage is the last one, or was made before it. -/
theorem Lineages.eq_or_before (h : Lineages vs) (hv : v ∈ vs) (hw : w ∈ vs)
    (hroot : v.root = w.root) (hlast : w.next = none) : v = w ∨ v.line <+: w.history := by
  rcases h.linear v hv w hw hroot with hbefore | hafter
  · rcases Version.prefix_line_iff.mp hbefore with hsame | hlater
    · exact .inl (h.eq_of_line hv hw hsame)
    · exact .inr hlater
  · rcases Version.prefix_line_iff.mp hafter with hsame | hlater
    · exact .inl (h.eq_of_line hv hw hsame.symm)
    · have hrevised := h.revised w hw v hv hlater
      rw [hlast] at hrevised
      cases hrevised

theorem Lineages.last_unique (h : Lineages vs) (hv : v ∈ vs) (hw : w ∈ vs)
    (hroot : v.root = w.root) (hvlast : v.next = none) (hwlast : w.next = none) : v = w := by
  rcases h.eq_or_before hv hw hroot hwlast with hsame | hbefore
  · exact hsame
  · have hrevised := h.revised v hv w hw hbefore
    rw [hvlast] at hrevised
    cases hrevised

/-- A version is reached from each that was made before it and is left. -/
theorem Lineages.reaches (h : Lineages vs) (hv : v ∈ vs) (hw : w ∈ vs)
    (hbefore : v.line <+: w.history) : Relation.TransGen (Version.Leads vs) v w := by
  generalize hk : w.history.length - v.history.length = k
  induction k using Nat.strongRecOn generalizing v with
  | ind k ih =>
      obtain ⟨next, hnext⟩ := Option.isSome_iff_exists.mp (h.revised v hv w hw hbefore)
      obtain ⟨u, hu, rfl, -, hhistory⟩ := h.next v hv next hnext
      have hlink : Version.Leads vs v u := ⟨hv, hu, hnext⟩
      have huv : u.root = v.root := by
        refine Version.root_eq_of_prefix ?_
        rw [← hhistory]
        exact u.history_prefix_line
      have hwv : w.root = v.root := Version.root_eq_of_prefix (hbefore.trans w.history_prefix_line)
      have hlen : v.line.length ≤ w.history.length := hbefore.length_le
      have hline : v.line.length = v.history.length + 1 := by
        rw [Version.line, List.length_append, List.length_singleton]
      have hulen : u.history.length = v.history.length + 1 := by rw [hhistory, hline]
      rcases h.linear u hu w hw (huv.trans hwv.symm) with hle | hge
      · rcases Version.prefix_line_iff.mp hle with hsame | hlater
        · rw [← h.eq_of_line hu hw hsame]
          exact .single hlink
        · exact .head hlink (ih _ (by omega) hu hlater rfl)
      · -- then `w` is `u`, which comes next after `v`
        have hwlen : w.line.length ≤ u.line.length := hge.length_le
        have hwline : w.line.length = w.history.length + 1 := by
          rw [Version.line, List.length_append, List.length_singleton]
        have huline : u.line.length = u.history.length + 1 := by
          rw [Version.line, List.length_append, List.length_singleton]
        have hsame : w.line = u.line := hge.eq_of_length (by omega)
        rw [h.eq_of_line hw hu hsame]
        exact .single hlink

/-- The last version of a lineage has all the others in its history. -/
theorem Lineages.mem_history_iff (h : Lineages vs) (hv : v ∈ vs) (hw : w ∈ vs)
    (hlast : w.next = none) : v.id ∈ w.history ↔ v.root = w.root ∧ v.id ≠ w.id := by
  constructor
  · intro hin
    refine ⟨(Version.root_eq_of_prefix ((h.before v hv w hw hin).trans w.history_prefix_line)).symm,
      fun hid => ?_⟩
    have hnodup : (w.history ++ [w.id]).Nodup := h.nodup w hw
    exact (List.nodup_append.mp hnodup).2.2 v.id hin w.id (List.mem_singleton_self _) hid
  · rintro ⟨hroot, hid⟩
    rcases h.eq_or_before hv hw hroot hlast with rfl | hbefore
    · exact absurd rfl hid
    · exact hbefore.subset v.id_mem_line

/-- A history lists what is left of it in the order of the links. -/
theorem Lineages.oldest_first (h : Lineages vs) (hw : w ∈ vs) :
    w.history.Pairwise fun i j => ∀ u ∈ vs, u.id = i → ∀ v ∈ vs, v.id = j →
      Relation.TransGen (Version.Leads vs) u v := by
  have hnodup : w.history.Nodup := (h.nodup w hw).sublist w.history_prefix_line.sublist
  rw [List.pairwise_iff_getElem]
  rintro i j hi hj hij u hu hui v hv hvj
  -- the line of `v` is the history up to `j`
  have hbefore : v.line <+: w.history := h.before v hv w hw (hvj ▸ List.getElem_mem hj)
  obtain ⟨rest, hrest⟩ := hbefore
  have hsplit : w.history = v.history ++ v.id :: rest := by
    rw [← hrest, Version.line, List.append_assoc, List.singleton_append]
  have hplace : j = v.history.length := by
    refine (List.getElem?_inj hj hnodup).mp ?_
    rw [List.getElem?_eq_getElem hj, ← hvj, hsplit]
    simp
  have hmem : u.id ∈ v.history := by
    have hget : w.history[i]? = some u.id := by rw [List.getElem?_eq_getElem hi, hui]
    rw [hsplit, List.getElem?_append_left (by omega)] at hget
    exact List.mem_of_getElem? hget
  exact h.reaches hu hv (h.before u hu v hv hmem)

end Consequences

end MarkSdk.Lib
