import MarkSdk.Memory.Maintenance

/-!
The clusters of a deduplication.

A memory leads a cluster when it is near no leader before it, and every other
one joins the first leader that it is near (`buildClusters_eq`). The clusters
are merged in the order of their leaders, up to the first that raises: its
leader has something unreadable for its earlier merges, or an embedding longer
than one of those that join it. What is merged away can so be told from the
memories alone (`mem_mergedAway_iff`).
-/

namespace MarkSdk

/-! ### Clusters -/

section Clusters

variable {near : Fragment → Fragment → Bool}

theorem flatMap_members_placeFragment (f : Fragment) (cs : List Cluster) :
    ((placeFragment near f cs).flatMap Cluster.members).Perm (f :: cs.flatMap Cluster.members) := by
  induction cs with
  | nil => rfl
  | cons c cs ih =>
      unfold placeFragment
      split
      · show ((c.members ++ [f]) ++ cs.flatMap Cluster.members).Perm _
        rw [List.append_assoc]
        exact List.perm_middle
      · show (c.members ++ (placeFragment near f cs).flatMap Cluster.members).Perm _
        exact (ih.append_left c.members).trans List.perm_middle

/-- Every fragment is in one cluster. -/
theorem flatMap_members_buildClusters (fs : List Fragment) :
    ((buildClusters near fs).flatMap Cluster.members).Perm fs := by
  have hfold : ∀ (fs : List Fragment) (cs : List Cluster),
      ((fs.foldl (fun cs f => placeFragment near f cs) cs).flatMap Cluster.members).Perm
        (fs ++ cs.flatMap Cluster.members) := by
    intro fs
    induction fs with
    | nil => exact fun cs => .refl _
    | cons f fs ih =>
        intro cs
        refine (ih _).trans ?_
        refine ((flatMap_members_placeFragment f cs).append_left fs).trans ?_
        exact List.perm_middle
  exact (hfold fs []).trans (by simp)

theorem near_placeFragment {f : Fragment} {cs : List Cluster}
    (hcs : ∀ c ∈ cs, ∀ g ∈ c.rest, near g c.seed = true) :
    ∀ c ∈ placeFragment near f cs, ∀ g ∈ c.rest, near g c.seed = true := by
  induction cs with
  | nil =>
      intro c hc g hg
      rw [placeFragment, List.mem_singleton] at hc
      subst hc
      cases hg
  | cons d ds ih =>
      have hds := ih fun c hc => hcs c (List.mem_cons_of_mem d hc)
      unfold placeFragment
      split
      · rename_i hnear
        refine List.forall_mem_cons.mpr ⟨fun g hg => ?_, fun c hc =>
          hcs c (List.mem_cons_of_mem d hc)⟩
        rcases List.mem_append.mp hg with hg | hg
        · exact hcs d List.mem_cons_self g hg
        · rw [List.mem_singleton.mp hg]
          exact hnear
      · exact List.forall_mem_cons.mpr ⟨hcs d List.mem_cons_self, hds⟩

/-- The members of a cluster are near its seed. -/
theorem near_buildClusters (fs : List Fragment) :
    ∀ c ∈ buildClusters near fs, ∀ g ∈ c.rest, near g c.seed = true := by
  have hfold : ∀ (fs : List Fragment) (cs : List Cluster),
      (∀ c ∈ cs, ∀ g ∈ c.rest, near g c.seed = true) →
        ∀ c ∈ fs.foldl (fun cs f => placeFragment near f cs) cs, ∀ g ∈ c.rest,
          near g c.seed = true := by
    intro fs
    induction fs with
    | nil => exact fun cs hcs => hcs
    | cons f fs ih => exact fun cs hcs => ih _ (near_placeFragment hcs)
  exact hfold fs [] (fun c hc => absurd hc List.not_mem_nil)

end Clusters

/-! ### Clusters that are merged -/

/-- The cluster is merged without an error. -/
def Cluster.mergeable (c : Cluster) : Bool :=
  c.rest.isEmpty ||
    ((previouslyMerged c.seed.metadata).toBool &&
      (centroid (c.members.map Fragment.vector)).toBool)

/-- The ids of the memories that are merged away. -/
def mergedAway (cs : List Cluster) : List String :=
  (cs.takeWhile Cluster.mergeable).flatMap fun c => c.rest.map Fragment.id

theorem mem_mergedAway {cs : List Cluster} {id : String} :
    id ∈ mergedAway cs ↔ ∃ c ∈ cs.takeWhile Cluster.mergeable, ∃ f ∈ c.rest, f.id = id := by
  simp only [mergedAway, List.mem_flatMap, List.mem_map]

theorem foldlM_addEmbedding_isOk (dim : Nat) (embeddings : List (List ℚ)) (result : List ℚ) :
    (embeddings.foldlM (addEmbedding dim) result).toBool = true ↔
      ∀ emb ∈ embeddings, dim ≤ emb.length := by
  induction embeddings generalizing result with
  | nil => simp [Except.toBool, Pure.pure, Except.pure]
  | cons emb embeddings ih =>
      rw [List.foldlM_cons, List.forall_mem_cons]
      unfold addEmbedding
      by_cases hshort : emb.length < dim
      · rw [if_pos hshort]
        simp [Bind.bind, Except.bind, Except.toBool, hshort]
      · rw [if_neg hshort]
        simp only [Bind.bind, Except.bind]
        rw [← ih (List.zipWith (· + ·) result emb)]
        exact ⟨fun h => ⟨not_lt.mp hshort, h⟩, And.right⟩

/-- The mean is there when no other embedding is shorter than the first. -/
theorem centroid_isOk (first : List ℚ) (others : List (List ℚ)) :
    (centroid (first :: others)).toBool = true ↔ ∀ emb ∈ others, first.length ≤ emb.length := by
  have hsum := foldlM_addEmbedding_isOk first.length (first :: others)
    (List.replicate first.length 0)
  rw [List.forall_mem_cons] at hsum
  unfold centroid
  dsimp only
  generalize (first :: others).foldlM (addEmbedding first.length)
    (List.replicate first.length 0) = sum at hsum ⊢
  cases sum with
  | ok result => exact ⟨fun _ => (hsum.mp rfl).2, fun _ => rfl⟩
  | error e =>
      constructor
      · intro hok
        cases hok
      · intro hall
        cases hsum.mpr ⟨le_refl _, hall⟩

/-! ### Leaders -/

section Leaders

variable (near : Fragment → Fragment → Bool) (fs : List Fragment) (lead : Fragment → Prop)

/-- `lead` holds of the memories that are near none before them of which it
holds. -/
def Leading : Prop :=
  ∀ earlier f later, fs = earlier ++ f :: later →
    (lead f ↔ ∀ g ∈ earlier, lead g → near f g = false)

/-- A memory that does not lead joins the first leader that it is near. -/
structure Joins (f g : Fragment) : Prop where
  member : f ∈ fs
  follows : ¬ lead f
  leader : lead g
  alike : near f g = true
  first : ∃ earlier later, fs = earlier ++ g :: later ∧
    ∀ h ∈ earlier, lead h → near f h = false

/-- A memory joins the leader, and its `merged_from_ids` is no list, or its
embedding is longer than that of the memory. -/
def Refuses (g : Fragment) : Prop :=
  ∃ f, Joins near fs lead f g ∧
    ((previouslyMerged g.metadata).toBool = false ∨ f.vector.length < g.vector.length)

/-- The memory joins the leader, and up to it no leader refuses. -/
structure MergedInto (f g : Fragment) : Prop extends Joins near fs lead f g where
  reached : ∀ earlier later, fs = earlier ++ g :: later →
    ∀ h ∈ earlier ++ [g], lead h → ¬ Refuses near fs lead h

end Leaders

section Leaders

variable {near : Fragment → Fragment → Bool} {fs : List Fragment} {lead : Fragment → Prop}

theorem Leading.dropLast {x : Fragment} (h : Leading near (fs ++ [x]) lead) :
    Leading near fs lead := by
  intro earlier f later hfs
  exact h earlier f (later ++ [x]) (by rw [hfs, List.append_assoc, List.cons_append])

theorem Leading.last {x : Fragment} (h : Leading near (fs ++ [x]) lead) :
    lead x ↔ ∀ g ∈ fs, lead g → near x g = false :=
  h fs x [] rfl

/-- There are such leaders. -/
theorem exists_leading (hnodup : fs.Nodup) : ∃ lead, Leading near fs lead := by
  induction fs using List.reverseRecOn with
  | nil =>
      refine ⟨fun _ => False, fun earlier f later h => ?_⟩
      cases earlier <;> cases h
  | append_singleton fs x ih =>
      rw [List.nodup_append] at hnodup
      obtain ⟨hfs, -, hapart⟩ := hnodup
      have hnew : x ∉ fs := fun hx => hapart x hx x (List.mem_singleton_self x) rfl
      obtain ⟨lead, hlead⟩ := ih hfs
      have hold : ∀ g ∈ fs, ((g = x ∧ ∀ g ∈ fs, lead g → near x g = false) ∨ g ≠ x ∧ lead g) ↔
          lead g := by
        intro g hg
        have hne : g ≠ x := fun heq => hnew (heq ▸ hg)
        simp [hne]
      refine ⟨fun f => (f = x ∧ ∀ g ∈ fs, lead g → near x g = false) ∨ f ≠ x ∧ lead f,
        fun earlier f later h => ?_⟩
      rcases List.eq_nil_or_concat later with rfl | ⟨later, y, rfl⟩
      · obtain ⟨rfl, hx⟩ := List.append_inj' h rfl
        obtain rfl : x = f := (List.cons.inj hx).1
        simp only [true_and, ne_eq, not_true_eq_false, false_and, or_false]
        exact forall₂_congr fun g hg => imp_congr (hold g hg).symm Iff.rfl
      · rw [List.concat_eq_append, ← List.cons_append, ← List.append_assoc] at h
        obtain ⟨rfl, hx⟩ := List.append_inj' h rfl
        refine (hold f (List.mem_append_right _ List.mem_cons_self)).trans
          ((hlead earlier f later rfl).trans ?_)
        exact forall₂_congr fun g hg =>
          imp_congr (hold g (List.mem_append_left _ hg)).symm Iff.rfl

/-! ### The clusters of the leaders -/

open Classical in
noncomputable def leaders (lead : Fragment → Prop) (fs : List Fragment) : List Fragment :=
  fs.filter fun f => lead f

open Classical in
/-- The memories whose first near leader is `g`. -/
noncomputable def followers (near : Fragment → Fragment → Bool) (lead : Fragment → Prop)
    (fs leaders : List Fragment) (g : Fragment) : List Fragment :=
  fs.filter fun f => ¬ lead f ∧ leaders.find? (near f) = some g

theorem mem_leaders {f : Fragment} : f ∈ leaders lead fs ↔ f ∈ fs ∧ lead f := by
  simp [leaders]

theorem mem_followers {ls : List Fragment} {f g : Fragment} :
    f ∈ followers near lead fs ls g ↔ f ∈ fs ∧ ¬ lead f ∧ ls.find? (near f) = some g := by
  simp [followers]

theorem placeFragment_none {x : Fragment} {cs : List Cluster}
    (h : ∀ c ∈ cs, near x c.seed = false) : placeFragment near x cs = cs ++ [⟨x, []⟩] := by
  induction cs with
  | nil => rfl
  | cons c cs ih =>
      rw [List.forall_mem_cons] at h
      rw [placeFragment, if_neg (by simp [h.1]), ih h.2]
      rfl

theorem placeFragment_some {x : Fragment} {cs ds : List Cluster} {c : Cluster}
    (h : ∀ d ∈ cs, near x d.seed = false) (hc : near x c.seed = true) :
    placeFragment near x (cs ++ c :: ds) = cs ++ ⟨c.seed, c.rest ++ [x]⟩ :: ds := by
  induction cs with
  | nil => rw [List.nil_append, placeFragment, if_pos hc]; rfl
  | cons d cs ih =>
      rw [List.forall_mem_cons] at h
      rw [List.cons_append, placeFragment, if_neg (by simp [h.1]), ih h.2]
      rfl

/-- Every memory that does not lead is near a leader. -/
theorem Leading.find?_isSome (h : Leading near fs lead) {f : Fragment} (hf : f ∈ fs)
    (hnot : ¬ lead f) : ((leaders lead fs).find? (near f)).isSome = true := by
  obtain ⟨earlier, later, hfs⟩ := List.append_of_mem hf
  rw [h earlier f later hfs] at hnot
  push Not at hnot
  obtain ⟨g, hg, hlead, hnear⟩ := hnot
  rw [List.find?_isSome]
  exact ⟨g, mem_leaders.mpr ⟨hfs ▸ List.mem_append_left _ hg, hlead⟩, by simpa using hnear⟩

theorem placeFragment_leads {x : Fragment} (hnew : x ∉ fs) (h : Leading near (fs ++ [x]) lead)
    (hx : lead x) :
    placeFragment near x
        ((leaders lead fs).map fun g => ⟨g, followers near lead fs (leaders lead fs) g⟩) =
      (leaders lead (fs ++ [x])).map fun g =>
        ⟨g, followers near lead (fs ++ [x]) (leaders lead (fs ++ [x])) g⟩ := by
  have hleaders : leaders lead (fs ++ [x]) = leaders lead fs ++ [x] := by
    simp [leaders, hx]
  have hfind : ∀ f ∈ fs, ¬ lead f → (leaders lead fs ++ [x]).find? (near f) =
      (leaders lead fs).find? (near f) := by
    intro f hf hnot
    obtain ⟨g, hg⟩ := Option.isSome_iff_exists.mp (h.dropLast.find?_isSome hf hnot)
    rw [List.find?_append, hg]
    rfl
  have hsame : ∀ g, followers near lead (fs ++ [x]) (leaders lead fs ++ [x]) g =
      followers near lead fs (leaders lead fs) g := by
    intro g
    unfold followers
    rw [List.filter_append]
    simp only [List.filter_cons, hx, not_true_eq_false, false_and, decide_false,
      Bool.false_eq_true, if_false, List.filter_nil, List.append_nil]
    refine List.filter_congr fun f hf => ?_
    by_cases hf' : lead f
    · simp [hf']
    · rw [hfind f hf hf']
  have hnone : followers near lead fs (leaders lead fs) x = [] := by
    rw [List.eq_nil_iff_forall_not_mem]
    intro f hf
    have hfound := (mem_followers.mp hf).2.2
    exact hnew (mem_leaders.mp (List.mem_of_find?_eq_some hfound)).1
  rw [placeFragment_none, hleaders, List.map_append]
  · simp only [hsame, List.map_cons, List.map_nil, hnone]
  · intro c hc
    obtain ⟨g, hg, rfl⟩ := List.mem_map.mp hc
    exact h.last.mp hx g (mem_leaders.mp hg).1 (mem_leaders.mp hg).2

theorem placeFragment_joins {x : Fragment} (hfs : fs.Nodup) (h : Leading near (fs ++ [x]) lead)
    (hx : ¬ lead x) :
    placeFragment near x
        ((leaders lead fs).map fun g => ⟨g, followers near lead fs (leaders lead fs) g⟩) =
      (leaders lead (fs ++ [x])).map fun g =>
        ⟨g, followers near lead (fs ++ [x]) (leaders lead (fs ++ [x])) g⟩ := by
  have hleaders : leaders lead (fs ++ [x]) = leaders lead fs := by
    simp [leaders, hx]
  have hnear : ((leaders lead fs).find? (near x)).isSome = true := by
    rw [List.find?_isSome]
    rw [h.last] at hx
    push Not at hx
    obtain ⟨g, hg, hlead, hnear⟩ := hx
    exact ⟨g, mem_leaders.mpr ⟨hg, hlead⟩, by simpa using hnear⟩
  obtain ⟨g, hg⟩ := Option.isSome_iff_exists.mp hnear
  obtain ⟨hxg, before, after, hls, hbefore⟩ := List.find?_eq_some_iff_append.mp hg
  have hself : followers near lead (fs ++ [x]) (leaders lead fs) g =
      followers near lead fs (leaders lead fs) g ++ [x] := by
    simp [followers, hx, hg]
  have hothers : ∀ g', g ≠ g' → followers near lead (fs ++ [x]) (leaders lead fs) g' =
      followers near lead fs (leaders lead fs) g' := by
    intro g' hne
    simp [followers, hg, hne]
  have hls' : (before ++ g :: after).Nodup := by
    rw [← hls]
    exact hfs.filter _
  rw [List.nodup_append, List.nodup_cons] at hls'
  rw [hleaders]
  generalize followers near lead fs (leaders lead fs) = rest at hself hothers ⊢
  generalize followers near lead (fs ++ [x]) (leaders lead fs) = rest' at hself hothers ⊢
  rw [hls, List.map_append, List.map_cons, List.map_append, List.map_cons,
    placeFragment_some]
  · have hother : ∀ g' ∈ before ++ after, g ≠ g' := by
      intro g' hg' heq
      subst heq
      rcases List.mem_append.mp hg' with hin | hin
      · exact hls'.2.2 g hin g List.mem_cons_self rfl
      · exact hls'.2.1.1 hin
    have hbefores : before.map (fun g' => (⟨g', rest' g'⟩ : Cluster)) =
        before.map fun g' => ⟨g', rest g'⟩ := List.map_congr_left fun g' hg' => by
      rw [hothers g' (hother g' (List.mem_append_left _ hg'))]
    have hafters : after.map (fun g' => (⟨g', rest' g'⟩ : Cluster)) =
        after.map fun g' => ⟨g', rest g'⟩ := List.map_congr_left fun g' hg' => by
      rw [hothers g' (hother g' (List.mem_append_right _ hg'))]
    rw [hself, hbefores, hafters]
  · intro c hc
    obtain ⟨g', hg', rfl⟩ := List.mem_map.mp hc
    simpa using hbefore g' hg'
  · exact hxg

/-- The clusters are those of the leaders. -/
theorem buildClusters_eq (hnodup : fs.Nodup) (h : Leading near fs lead) :
    buildClusters near fs =
      (leaders lead fs).map fun g => ⟨g, followers near lead fs (leaders lead fs) g⟩ := by
  induction fs using List.reverseRecOn with
  | nil => rfl
  | append_singleton fs x ih =>
      rw [List.nodup_append] at hnodup
      obtain ⟨hfs, -, hapart⟩ := hnodup
      have hnew : x ∉ fs := fun hx => hapart x hx x (List.mem_singleton_self x) rfl
      have hstep : buildClusters near (fs ++ [x]) =
          placeFragment near x (buildClusters near fs) := List.foldl_append
      rw [hstep, ih hfs h.dropLast]
      by_cases hx : lead x
      · exact placeFragment_leads hnew h hx
      · exact placeFragment_joins hfs h hx

/-- The followers of a leader are those that join it. -/
theorem mem_followers_iff {f g : Fragment} :
    f ∈ followers near lead fs (leaders lead fs) g ↔ Joins near fs lead f g := by
  rw [mem_followers, List.find?_eq_some_iff_append]
  constructor
  · rintro ⟨hf, hnot, hnear, before, after, hls, hbefore⟩
    obtain ⟨l₁, l₂, rfl, rfl, hl₂⟩ := List.filter_eq_append_iff.mp hls
    obtain ⟨l₃, l₄, rfl, hl₃, hlead, -⟩ := List.filter_eq_cons_iff.mp hl₂
    refine ⟨hf, hnot, by simpa using hlead, hnear, l₁ ++ l₃, l₄, (List.append_assoc ..).symm,
      fun h hh hleads => ?_⟩
    rcases List.mem_append.mp hh with hin | hin
    · simpa using hbefore h (List.mem_filter.mpr ⟨hin, by simpa using hleads⟩)
    · exact absurd (by simpa using hleads) (hl₃ h hin)
  · rintro ⟨hf, hnot, hlead, hnear, earlier, later, rfl, hearlier⟩
    refine ⟨hf, hnot, hnear, leaders lead earlier, leaders lead later, ?_, fun h hh => ?_⟩
    · simp [leaders, hlead]
    · obtain ⟨hin, hleads⟩ := mem_leaders.mp hh
      simpa using hearlier h hin hleads

/-- The cluster of a leader can be merged unless the leader refuses. -/
theorem mergeable_iff (g : Fragment) :
    Cluster.mergeable ⟨g, followers near lead fs (leaders lead fs) g⟩ = true ↔
      ¬ Refuses near fs lead g := by
  have hmean := centroid_isOk g.vector
    ((followers near lead fs (leaders lead fs) g).map Fragment.vector)
  rw [List.forall_mem_map] at hmean
  simp only [Cluster.mergeable, Cluster.members, List.map_cons, Bool.or_eq_true,
    Bool.and_eq_true, hmean, List.isEmpty_iff]
  constructor
  · rintro hok ⟨f, hjoins, hbad⟩
    rw [← mem_followers_iff] at hjoins
    rcases hok with hnone | ⟨hlist, hlong⟩
    · rw [hnone] at hjoins
      cases hjoins
    · rcases hbad with hunread | hshort
      · rw [hlist] at hunread
        cases hunread
      · exact absurd (hlong f hjoins) (not_le.mpr hshort)
  · intro hnot
    by_cases hnone : followers near lead fs (leaders lead fs) g = []
    · exact .inl hnone
    · obtain ⟨f, hf⟩ := List.exists_mem_of_ne_nil _ hnone
      refine .inr ⟨?_, fun f' hf' => ?_⟩
      · by_contra hunread
        exact hnot ⟨f, mem_followers_iff.mp hf, .inl (by simpa using hunread)⟩
      · by_contra hshort
        exact hnot ⟨f', mem_followers_iff.mp hf', .inr (not_le.mp hshort)⟩

theorem mem_takeWhile_of_nodup {α : Type} {p : α → Bool} {before after : List α} {x : α}
    (h : (before ++ x :: after).Nodup) :
    x ∈ (before ++ x :: after).takeWhile p ↔ ∀ y ∈ before ++ [x], p y = true := by
  induction before with
  | nil =>
      rw [List.nil_append, List.takeWhile_cons]
      by_cases hx : p x = true <;> simp [hx]
  | cons y before ih =>
      rw [List.cons_append, List.nodup_cons] at h
      have hne : x ≠ y := by
        rintro rfl
        exact h.1 (List.mem_append_right _ List.mem_cons_self)
      rw [List.cons_append, List.takeWhile_cons, List.cons_append, List.forall_mem_cons, ← ih h.2]
      by_cases hy : p y = true <;> simp [hy, hne]

/-- A memory is merged away when it is merged into a leader. -/
theorem mem_mergedAway_iff (hnodup : fs.Nodup) (h : Leading near fs lead) {id : String} :
    id ∈ mergedAway (buildClusters near fs) ↔
      ∃ f g, f.id = id ∧ MergedInto near fs lead f g := by
  have hcluster : ∀ g ∈ leaders lead fs, (g ∈ (leaders lead fs).takeWhile (Cluster.mergeable ∘
      fun g => ⟨g, followers near lead fs (leaders lead fs) g⟩) ↔
      ∀ earlier later, fs = earlier ++ g :: later → ∀ h ∈ earlier ++ [g], lead h →
        ¬ Refuses near fs lead h) := by
    intro g hg
    have hsplit : ∀ earlier later, fs = earlier ++ g :: later →
        leaders lead fs = leaders lead earlier ++ g :: leaders lead later := by
      intro earlier later hfs
      rw [hfs]
      simp [leaders, (mem_leaders.mp hg).2]
    have hmem : ∀ earlier, ∀ h, h ∈ leaders lead earlier ++ [g] ↔ h ∈ earlier ++ [g] ∧ lead h := by
      intro earlier h
      have hlead := (mem_leaders.mp hg).2
      simp only [List.mem_append, List.mem_singleton, mem_leaders]
      constructor
      · rintro (⟨hin, hleads⟩ | rfl)
        · exact ⟨.inl hin, hleads⟩
        · exact ⟨.inr rfl, hlead⟩
      · rintro ⟨hin | rfl, hleads⟩
        · exact .inl ⟨hin, hleads⟩
        · exact .inr rfl
    have htake : ∀ earlier later, fs = earlier ++ g :: later →
        (g ∈ (leaders lead fs).takeWhile (Cluster.mergeable ∘
          fun g => ⟨g, followers near lead fs (leaders lead fs) g⟩) ↔
        ∀ h ∈ earlier ++ [g], lead h → ¬ Refuses near fs lead h) := by
      intro earlier later hfs
      have hls : (leaders lead fs).Nodup := hnodup.filter _
      generalize hp : (Cluster.mergeable ∘
        fun g => (⟨g, followers near lead fs (leaders lead fs) g⟩ : Cluster)) = p
      rw [hsplit earlier later hfs] at hls ⊢
      rw [mem_takeWhile_of_nodup hls]
      subst hp
      constructor
      · intro hall h hh hleads
        exact mergeable_iff h |>.mp (hall h ((hmem earlier h).mpr ⟨hh, hleads⟩))
      · intro hall h hh
        obtain ⟨hin, hleads⟩ := (hmem earlier h).mp hh
        exact (mergeable_iff h).mpr (hall h hin hleads)
    obtain ⟨earlier, later, hfs⟩ := List.append_of_mem (mem_leaders.mp hg).1
    exact ⟨fun hin earlier later hfs => (htake earlier later hfs).mp hin,
      fun hall => (htake earlier later hfs).mpr (hall earlier later hfs)⟩
  rw [mem_mergedAway, buildClusters_eq hnodup h, List.takeWhile_map]
  constructor
  · rintro ⟨c, hc, f, hf, hid⟩
    obtain ⟨g, hg, rfl⟩ := List.mem_map.mp hc
    exact ⟨f, g, hid, mem_followers_iff.mp hf,
      (hcluster g (List.takeWhile_subset _ hg)).mp hg⟩
  · rintro ⟨f, g, hid, hjoins, hreached⟩
    have hg : g ∈ leaders lead fs := by
      obtain ⟨earlier, later, hfs, -⟩ := hjoins.first
      exact mem_leaders.mpr ⟨hfs ▸ List.mem_append_right _ List.mem_cons_self, hjoins.leader⟩
    exact ⟨_, List.mem_map_of_mem ((hcluster g hg).mpr hreached), f, mem_followers_iff.mpr hjoins,
      hid⟩

end Leaders

end MarkSdk
