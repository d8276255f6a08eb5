import Mathlib.Algebra.BigOperators.Group.Finset.Basic
import MarkSdk.Context.Budget

/-!
When a fit takes every line as it is.

Lines are charged one by one, each with a token for its line break, and each
header once. The rendered whole may well cost less than the charges add up to,
so a budget that the whole fits is not always filled (`fit_keepsWhole_iff`).
-/

namespace MarkSdk.ContextBudget

/-- Nothing is dropped, and nothing is cut. -/
def KeepsWhole (b : ContextBudget) (render : List BudgetItem → String)
    (items : List BudgetItem) : Prop :=
  (b.fit items render).items = items ∧ (b.fit items render).usage.truncated = false

instance (b : ContextBudget) (render : List BudgetItem → String) (items : List BudgetItem) :
    Decidable (b.KeepsWhole render items) :=
  inferInstanceAs (Decidable (_ ∧ _))

def lineCost (b : ContextBudget) (text : String) : Nat := b.count text + 1

/-- The headers of some lines, each counted once. -/
def headersOf (items : List BudgetItem) : Finset String :=
  (items.filterMap BudgetItem.header).toFinset

/-- What the lines are charged in all. -/
def charges (b : ContextBudget) (items : List BudgetItem) : Nat :=
  (items.map fun item => b.lineCost item.text).sum + ∑ h ∈ headersOf items, b.lineCost h

/-- What the renderer adds to no line at all, measured on an empty one. -/
def overhead (b : ContextBudget) (render : List BudgetItem → String)
    (items : List BudgetItem) : Nat :=
  if items = [] then 0 else b.count (render [⟨.records, "", none, none⟩])

/-! ### The charges along the fill -/

/-- The charges of lines that are all taken, some headers being there already. -/
def chargesFrom (b : ContextBudget) : List String → List BudgetItem → Nat
  | _, [] => 0
  | groups, item :: rest =>
      b.cost groups item + chargesFrom b (groups ++ item.header.toList) rest

variable {b : ContextBudget} {render : List BudgetItem → String} {items : List BudgetItem}

theorem chargesFrom_eq (groups : List String) (items : List BudgetItem) :
    b.chargesFrom groups items = (items.map fun item => b.lineCost item.text).sum +
      ∑ h ∈ headersOf items \ groups.toFinset, b.lineCost h := by
  induction items generalizing groups with
  | nil => simp [chargesFrom, headersOf]
  | cons item rest ih =>
      rw [chargesFrom, ih, cost, List.map_cons, List.sum_cons]
      cases hheader : item.header with
      | none =>
          have hsame : headersOf (item :: rest) = headersOf rest := by
            simp [headersOf, hheader]
          simp only [hsame, Option.toList_none, List.append_nil, lineCost]
          omega
      | some header =>
          have hmore : headersOf (item :: rest) = insert header (headersOf rest) := by
            simp [headersOf, hheader]
          have hgroups : (groups ++ [header]).toFinset = insert header groups.toFinset := by
            ext h
            simp
          simp only [hmore, Option.toList_some, hgroups]
          by_cases hin : header ∈ groups
          · have hin' : header ∈ groups.toFinset := List.mem_toFinset.mpr hin
            rw [if_pos hin, Finset.insert_eq_of_mem hin', Finset.insert_sdiff_of_mem _ hin',
              lineCost]
            omega
          · have hin' : header ∉ groups.toFinset := fun h => hin (List.mem_toFinset.mp h)
            have hsplit : insert header (headersOf rest) \ groups.toFinset =
                insert header (headersOf rest \ insert header groups.toFinset) := by
              ext h
              by_cases hh : h = header <;> simp [hh, hin]
            have hnew : header ∉ headersOf rest \ insert header groups.toFinset := by simp
            rw [if_neg hin, hsplit, Finset.sum_insert hnew, lineCost, lineCost]
            omega

theorem chargesFrom_nil (items : List BudgetItem) : b.chargesFrom [] items = b.charges items := by
  rw [chargesFrom_eq]
  simp [charges]

/-- The order in which lines are taken does not change what they cost. -/
theorem charges_perm {items other : List BudgetItem} (h : items.Perm other) :
    b.charges items = b.charges other := by
  rw [charges, charges, (h.map _).sum_eq, headersOf, headersOf,
    List.toFinset_eq_of_perm _ _ (h.filterMap _)]

/-! ### The fill -/

variable {st : Filling} {rank index : Nat} {item : BudgetItem}

variable (b render st rank) in
/-- One line is taken whole if there is room for it; else it is left out, or the
block is cut. -/
theorem fillStep_cases (hitem : items[index]? = some item) :
    (b.cost st.groups item : Int) ≤ st.remaining ∧
        b.fillStep render items st rank index = st.choose index item (b.cost st.groups item) ∨
      st.remaining < b.cost st.groups item ∧
        (b.fillStep render items st rank index = st ∨
          (b.fillStep render items st rank index).truncated = true) := by
  rw [fillStep, hitem]
  dsimp only
  split
  case isTrue hroom => exact .inl ⟨hroom, rfl⟩
  case isFalse hroom =>
    refine .inr ⟨by omega, ?_⟩
    split
    · cases b.truncate render item with
      | none => exact .inl rfl
      | some cut => exact .inr rfl
    · exact .inl rfl

theorem fillStep_truncated (h : st.truncated = true) :
    (b.fillStep render items st rank index).truncated = true := by
  cases hitem : items[index]? with
  | none => rwa [fillStep, hitem]
  | some item =>
      rcases fillStep_cases b render st rank hitem with
        ⟨-, heq⟩ | ⟨-, heq | htrunc⟩
      · rwa [heq]
      · rwa [heq]
      · exact htrunc

theorem fillFrom_truncated (order : List Nat) (h : st.truncated = true) :
    (b.fillFrom render items rank order st).truncated = true := by
  induction order generalizing st rank with
  | nil => exact h
  | cons index order ih => exact ih (fillStep_truncated h)

theorem fillStep_other {i : Nat} (h : i ≠ index) :
    (b.fillStep render items st rank index).chosen i = st.chosen i := by
  rw [fillStep]
  cases items[index]? with
  | none => rfl
  | some item =>
      dsimp only
      split
      · exact Filling.choose_other h st item _
      · split
        · cases b.truncate render item with
          | none => rfl
          | some cut => exact Filling.choose_other h st cut (b.count (render [cut]))
        · rfl

theorem fillFrom_other {i : Nat} (order : List Nat) (h : i ∉ order) :
    (b.fillFrom render items rank order st).chosen i = st.chosen i := by
  induction order generalizing st rank with
  | nil => rfl
  | cons index order ih =>
      obtain ⟨hne, hrest⟩ := not_or.mp (mt List.mem_cons.mpr h)
      exact (ih hrest).trans (fillStep_other hne)

/-- The lines at some places. -/
def itemsAt (items : List BudgetItem) (order : List Nat) : List BudgetItem :=
  order.filterMap fun i => items[i]?

variable (b render items) in
/-- Where there is room for all charges, every line is taken as it is. -/
theorem fillFrom_whole (st : Filling) (rank : Nat) (order : List Nat) (hnodup : order.Nodup)
    (hroom : (b.chargesFrom st.groups (itemsAt items order) : Int) ≤ st.remaining) :
    (b.fillFrom render items rank order st).truncated = st.truncated ∧
      ∀ i ∈ order, items[i]?.isSome = true →
        (b.fillFrom render items rank order st).chosen i = items[i]? := by
  induction order generalizing st rank with
  | nil => exact ⟨rfl, fun i hi => absurd hi List.not_mem_nil⟩
  | cons index order ih =>
      obtain ⟨hindex, hrest⟩ := List.nodup_cons.mp hnodup
      cases hitem : items[index]? with
      | none =>
          have hsame : b.fillStep render items st rank index = st := by rw [fillStep, hitem]
          have hroom' : (b.chargesFrom st.groups (itemsAt items order) : Int) ≤ st.remaining := by
            simpa [itemsAt, hitem] using hroom
          obtain ⟨htrunc, hchosen⟩ := ih st (rank + 1) hrest hroom'
          rw [fillFrom, hsame]
          refine ⟨htrunc, fun i hi hsome => ?_⟩
          rcases List.mem_cons.mp hi with rfl | hi
          · rw [hitem] at hsome
            cases hsome
          · exact hchosen i hi hsome
      | some item =>
          have hcharge : b.chargesFrom st.groups (itemsAt items (index :: order)) =
              b.cost st.groups item +
                b.chargesFrom (st.groups ++ item.header.toList) (itemsAt items order) := by
            rw [itemsAt, List.filterMap_cons, hitem]
            rfl
          rw [hcharge] at hroom
          rcases fillStep_cases b render st rank hitem with
            ⟨-, hstep⟩ | ⟨hover, -⟩
          · obtain ⟨htrunc, hchosen⟩ :=
              ih (st.choose index item (b.cost st.groups item)) (rank + 1) hrest (by
                show (b.chargesFrom (st.groups ++ item.header.toList) _ : Int) ≤
                  st.remaining - (b.cost st.groups item : Int)
                omega)
            rw [fillFrom, hstep]
            refine ⟨htrunc, fun i hi hsome => ?_⟩
            rcases List.mem_cons.mp hi with rfl | hi
            · rw [fillFrom_other order hindex, Filling.choose_self, hitem]
            · exact hchosen i hi hsome
          · omega

/-- Where every line was taken and none was cut, there was room for all charges. -/
theorem chargesFrom_le_of_whole (order : List Nat) (hnodup : order.Nodup) (hne : order ≠ [])
    (hitems : ∀ i ∈ order, items[i]?.isSome = true) (hfree : ∀ i ∈ order, st.chosen i = none)
    (htrunc : (b.fillFrom render items rank order st).truncated = false)
    (hall : ∀ i ∈ order, ((b.fillFrom render items rank order st).chosen i).isSome = true) :
    (b.chargesFrom st.groups (itemsAt items order) : Int) ≤ st.remaining := by
  induction order generalizing st rank with
  | nil => exact absurd rfl hne
  | cons index order ih =>
      obtain ⟨hindex, hrest⟩ := List.nodup_cons.mp hnodup
      obtain ⟨item, hitem⟩ := Option.isSome_iff_exists.mp (hitems index List.mem_cons_self)
      have hcharge : b.chargesFrom st.groups (itemsAt items (index :: order)) =
          b.cost st.groups item +
            b.chargesFrom (st.groups ++ item.header.toList) (itemsAt items order) := by
        rw [itemsAt, List.filterMap_cons, hitem]
        rfl
      rw [fillFrom] at htrunc hall
      rcases fillStep_cases b render st rank hitem with
        ⟨hroom, hstep⟩ | ⟨-, hstep | hcut⟩
      · rw [hcharge]
        by_cases hnil : order = []
        · subst hnil
          simpa [itemsAt, chargesFrom] using hroom
        · rw [hstep] at htrunc hall
          have hleft := ih hrest hnil (fun i hi => hitems i (List.mem_cons_of_mem _ hi))
            (fun i hi => by
              have hne' : i ≠ index := fun heq => hindex (heq ▸ hi)
              rw [Filling.choose_other hne']
              exact hfree i (List.mem_cons_of_mem _ hi))
            htrunc fun i hi => hall i (List.mem_cons_of_mem _ hi)
          have hleft' : (b.chargesFrom (st.groups ++ item.header.toList) (itemsAt items order) : Int)
              ≤ st.remaining - (b.cost st.groups item : Int) := hleft
          push_cast
          omega
      · -- a line that is passed over is never taken later on
        have hlost := hall index List.mem_cons_self
        rw [fillFrom_other order hindex, hstep, hfree index List.mem_cons_self] at hlost
        cases hlost
      · rw [fillFrom_truncated order hcut] at htrunc
        cases htrunc

/-! ### The fit -/

theorem itemsAt_range (items : List BudgetItem) :
    itemsAt items (List.range items.length) = items := by
  have h := pick_eq_filterMap (fun _ => true) items
  simp only [if_true] at h
  rw [itemsAt, ← h, pick, List.filter_eq_self.mpr (by simp), List.zipIdx_map_fst]

theorem priorityOrder_perm (items : List BudgetItem) :
    (priorityOrder items).Perm (List.range items.length) :=
  List.mergeSort_perm _ _

theorem charges_priorityOrder (items : List BudgetItem) :
    b.chargesFrom [] (itemsAt items (priorityOrder items)) = b.charges items := by
  have hperm : (itemsAt items (priorityOrder items)).Perm (itemsAt items (List.range items.length)) :=
    (priorityOrder_perm items).filterMap _
  rw [chargesFrom_nil, charges_perm hperm, itemsAt_range]

/-- The state that the fill of a fit ends with. -/
def filling (b : ContextBudget) (render : List BudgetItem → String)
    (items : List BudgetItem) : Filling :=
  b.fillFrom render items 0 (priorityOrder items)
    ⟨(b.maxTokens : Int) - b.overhead render items, fun _ => none, [], false⟩

/-- Where there is room for all charges, the fill of a fit takes every line. -/
theorem filling_whole (hroom : b.overhead render items + b.charges items ≤ b.maxTokens) :
    (b.filling render items).truncated = false ∧
      ∀ i < items.length, (b.filling render items).chosen i = items[i]? := by
  have hnodup : (priorityOrder items).Nodup :=
    (priorityOrder_perm items).nodup_iff.mpr List.nodup_range
  obtain ⟨htrunc, hchosen⟩ := fillFrom_whole b render items
    ⟨(b.maxTokens : Int) - b.overhead render items, fun _ => none, [], false⟩ 0
    (priorityOrder items) hnodup (by
      rw [charges_priorityOrder]
      dsimp only
      omega)
  refine ⟨htrunc, fun i hi => ?_⟩
  exact hchosen i ((priorityOrder_perm items).mem_iff.mpr (List.mem_range.mpr hi)) (by simpa using hi)

/-- Where the fill of a fit takes every line, there was room for all charges. -/
theorem charges_le_of_filling (hne : items ≠ [])
    (htrunc : (b.filling render items).truncated = false)
    (hall : ∀ i < items.length, ((b.filling render items).chosen i).isSome = true) :
    b.overhead render items + b.charges items ≤ b.maxTokens := by
  have hmem : ∀ i, i ∈ priorityOrder items ↔ i < items.length := fun i =>
    (priorityOrder_perm items).mem_iff.trans List.mem_range
  have hnodup : (priorityOrder items).Nodup :=
    (priorityOrder_perm items).nodup_iff.mpr List.nodup_range
  have hne' : priorityOrder items ≠ [] := by
    intro hnil
    have hlength := (priorityOrder_perm items).length_eq
    rw [hnil, List.length_nil, List.length_range] at hlength
    exact hne (List.length_eq_zero_iff.mp hlength.symm)
  have hroom := chargesFrom_le_of_whole (priorityOrder items) hnodup hne'
    (fun i hi => by simpa using (hmem i).mp hi) (fun _ _ => rfl) htrunc
    fun i hi => hall i ((hmem i).mp hi)
  rw [charges_priorityOrder] at hroom
  dsimp only at hroom
  omega

theorem trim_of_fits {chosen : Nat → Option BudgetItem} {top : Option Nat} {keep : List Nat}
    {truncated : Bool} (h : b.count (shownText render chosen keep) ≤ b.maxTokens) :
    b.trim render items chosen top keep truncated = (keep, truncated) := by
  cases keep with
  | nil => rw [trim]
  | cons first rest => rw [trim, if_neg (Nat.not_lt.mpr h)]

/-- The repair of a fit: the places kept, and whether the block is cut. -/
def trimmed (b : ContextBudget) (render : List BudgetItem → String)
    (items : List BudgetItem) : List Nat × Bool :=
  b.trim render items (b.filling render items).chosen (priorityOrder items).head?
    ((List.range items.length).filter fun i => ((b.filling render items).chosen i).isSome)
    (b.filling render items).truncated

theorem fit_items (b : ContextBudget) (render : List BudgetItem → String)
    (items : List BudgetItem) : (b.fit items render).items =
      (b.trimmed render items).1.filterMap (b.filling render items).chosen := rfl

theorem fit_truncated (b : ContextBudget) (render : List BudgetItem → String)
    (items : List BudgetItem) :
    (b.fit items render).usage.truncated = (b.trimmed render items).2 := rfl

/-- A fit that keeps all lines as they are takes them all in its fill. -/
theorem filling_whole_of_keepsWhole (hne : items ≠ []) (h : b.KeepsWhole render items) :
    (b.filling render items).truncated = false ∧
      ∀ i < items.length, ((b.filling render items).chosen i).isSome = true := by
  obtain ⟨hitems, htrunc⟩ := h
  rw [fit_items] at hitems
  rw [fit_truncated] at htrunc
  have hsub : (b.trimmed render items).1.Sublist
      ((List.range items.length).filter fun i => ((b.filling render items).chosen i).isSome) :=
    trim_sublist _ _ _ _ _ _ _
  have hlong : items.length ≤ (b.trimmed render items).1.length := by
    conv => lhs; rw [← hitems]
    exact List.length_filterMap_le _ _
  have hrange : (b.trimmed render items).1 = List.range items.length :=
    (hsub.trans List.filter_sublist).eq_of_length_le (by rw [List.length_range]; exact hlong)
  have hall : ∀ i < items.length, ((b.filling render items).chosen i).isSome = true := by
    intro i hi
    have hin : i ∈ (b.trimmed render items).1 := by rw [hrange]; exact List.mem_range.mpr hi
    exact (List.mem_filter.mp (hsub.subset hin)).2
  refine ⟨?_, hall⟩
  -- the first line in the order is kept, so a cut of it would show
  by_contra hcut
  have hcut' : (b.filling render items).truncated = true := by simpa using hcut
  obtain ⟨first, rest, horder⟩ : ∃ first rest, priorityOrder items = first :: rest := by
    cases horder : priorityOrder items with
    | nil =>
        have hlength := (priorityOrder_perm items).length_eq
        rw [horder, List.length_nil, List.length_range] at hlength
        exact absurd (List.length_eq_zero_iff.mp hlength.symm) hne
    | cons first rest => exact ⟨first, rest, rfl⟩
  have hfirst : first < items.length := by
    have hmem := (priorityOrder_perm items).mem_iff (a := first)
    rw [horder] at hmem
    exact List.mem_range.mp (hmem.mp List.mem_cons_self)
  have htop : (priorityOrder items).head? = some first := by rw [horder, List.head?_cons]
  have hshown := trim_truncated b render items (b.filling render items).chosen
    (priorityOrder items).head?
    ((List.range items.length).filter fun i => ((b.filling render items).chosen i).isSome)
    (b.filling render items).truncated (List.nodup_range.filter _)
    fun _ => ⟨first, htop, List.mem_filter.mpr ⟨List.mem_range.mpr hfirst, hall first hfirst⟩⟩
  have hkept : first ∈ (b.trimmed render items).1 := by
    rw [hrange]
    exact List.mem_range.mpr hfirst
  have hseen : (b.trimmed render items).2 = true := hshown.mpr ⟨hcut', first, htop, hkept⟩
  rw [hseen] at htrunc
  cases htrunc

/-- A fill that takes every line as it is leaves nothing to repair, if the whole
fits. -/
theorem keepsWhole_of_charges (hne : items ≠ []) (hfits : b.count (render items) ≤ b.maxTokens)
    (hroom : b.overhead render items + b.charges items ≤ b.maxTokens) :
    b.KeepsWhole render items := by
  obtain ⟨htrunc, hchosen⟩ := filling_whole hroom
  have hkeep : ((List.range items.length).filter fun i =>
      ((b.filling render items).chosen i).isSome) = List.range items.length :=
    List.filter_eq_self.mpr fun i hi => by
      rw [hchosen i (List.mem_range.mp hi)]
      simpa using hi
  have hitems : (List.range items.length).filterMap (b.filling render items).chosen = items := by
    rw [List.filterMap_congr fun i hi => hchosen i (List.mem_range.mp hi)]
    exact itemsAt_range items
  have hnil : List.range items.length ≠ [] := by
    intro hnil
    exact hne (List.length_eq_zero_iff.mp (List.range_eq_nil.mp hnil))
  have hshown : shownText render (b.filling render items).chosen (List.range items.length) =
      render items := by
    rw [shownText, if_neg hnil, hitems]
  have htrimmed : b.trimmed render items = (List.range items.length, false) := by
    rw [trimmed, hkeep, htrunc]
    exact trim_of_fits (by rw [hshown]; exact hfits)
  exact ⟨by rw [fit_items, htrimmed, hitems], by rw [fit_truncated, htrimmed]⟩

/-- A budget that the whole block fits is filled with all of it exactly when it
has room for what the lines are charged. -/
theorem fit_keepsWhole_iff (b : ContextBudget) (items : List BudgetItem)
    (render : List BudgetItem → String) (hfits : b.count (render items) ≤ b.maxTokens) :
    b.KeepsWhole render items ↔ b.overhead render items + b.charges items ≤ b.maxTokens := by
  by_cases hnil : items = []
  · subst hnil
    have horder : priorityOrder [] = [] := (priorityOrder_perm []).eq_nil
    have htrimmed : b.trimmed render [] = ([], false) := by
      rw [trimmed, filling, horder]
      exact trim_of_fits (Nat.zero_le _)
    have hwhole : b.KeepsWhole render [] :=
      ⟨by rw [fit_items, htrimmed]; rfl, by rw [fit_truncated, htrimmed]⟩
    exact iff_of_true hwhole (by simp [overhead, charges, headersOf])
  · constructor
    · intro h
      obtain ⟨htrunc, hall⟩ := filling_whole_of_keepsWhole hnil h
      exact charges_le_of_filling hnil htrunc hall
    · exact keepsWhole_of_charges hnil hfits

/-- One token holds the line, and is not enough for its charge. -/
theorem keepsWhole_short_line :
    (⟨1, none⟩ : ContextBudget).count (renderLines [⟨.facts, "abcd", none, none⟩]) ≤ 1 ∧
      ¬ (⟨1, none⟩ : ContextBudget).KeepsWhole renderLines [⟨.facts, "abcd", none, none⟩] := by
  refine ⟨by decide +kernel, fun h => ?_⟩
  obtain ⟨htrunc, hall⟩ := filling_whole_of_keepsWhole (by simp) h
  have hroom := charges_le_of_filling (by simp) htrunc hall
  revert hroom
  decide +kernel

/-- Two lines of one subject, with room for both and for their header. -/
theorem fit_keepsWhole_two_lines :
    (⟨11, none⟩ : ContextBudget).KeepsWhole renderLines
      [⟨.facts, "port = 8080", some "atlas-core", none⟩,
        ⟨.records, "owner", some "atlas-core", none⟩] :=
  (fit_keepsWhole_iff ⟨11, none⟩ _ renderLines (by decide +kernel)).mpr (by decide +kernel)

end MarkSdk.ContextBudget
