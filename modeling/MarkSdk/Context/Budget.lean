import Mathlib.Data.List.Basic
import Mathlib.Data.List.Sort
import Mathlib.Data.List.Induction
import Mathlib.Algebra.BigOperators.Group.List.Basic
import MarkSdk.Store.Values
import MarkSdk.Context.History

/-!
The token budget of one injected block.

Lines are taken by the priority of their sections while an estimate for each
line still fits. The rendered whole is then measured, and lines are taken out
again, the least important one first, until it fits.
-/

namespace MarkSdk

/-! ### Lines -/

/-- `SECTIONS`, highest priority first. -/
inductive BudgetSection : Type
  | corrections | unknown | relevant | facts | records | linked | related | assistant
  deriving DecidableEq, Repr

namespace BudgetSection

def all : List BudgetSection :=
  [corrections, unknown, relevant, facts, records, linked, related, assistant]

def rank : BudgetSection → Nat
  | corrections => 0
  | unknown => 1
  | relevant => 2
  | facts => 3
  | records => 4
  | linked => 5
  | related => 6
  | assistant => 7

theorem mem_all (s : BudgetSection) : s ∈ all := by
  cases s <;> decide

end BudgetSection

structure BudgetItem where
  sectionName : BudgetSection
  text : String
  group : Option String := none
  ref : Option String := none
  deriving DecidableEq, Repr

/-- `item.group`, where a header that is there is not empty. -/
def BudgetItem.header (item : BudgetItem) : Option String := item.group.filter (· ≠ "")

/-- `replace(item, text=item.text[:n].rstrip() + "…")` -/
def BudgetItem.cutTo (item : BudgetItem) (n : Nat) : BudgetItem :=
  { item with text := String.ofList (rstripChars isSpace (item.text.toList.take n)) ++ "…" }

/-- A line that was cut, and shows at least eight characters' worth of it. -/
def BudgetItem.IsCutOf (cut item : BudgetItem) : Prop :=
  ∃ n, 8 ≤ n ∧ n < item.text.length ∧ cut = item.cutTo n

/-- `render_lines`, with the header that was shown last. -/
def renderFrom (group : Option String) : List BudgetItem → List String
  | [] => []
  | item :: rest =>
      match item.header with
      | some header =>
          if some header = group then item.text :: renderFrom item.group rest
          else header :: item.text :: renderFrom item.group rest
      | none => item.text :: renderFrom item.group rest

def renderLines (items : List BudgetItem) : String := "\n".intercalate (renderFrom none items)

/-! ### The budget -/

def estimateTokens (text : String) : Nat := (text.length + 3) / 4

structure ContextBudget where
  maxTokens : Nat
  tokenCounter : Option (String → Int) := none

namespace ContextBudget

/-- Tokens of a text; an empty text has none. -/
def count (b : ContextBudget) (text : String) : Nat :=
  if text = "" then 0
  else
    match b.tokenCounter with
    | some counter => (max 0 (counter text)).toNat
    | none => estimateTokens text

@[simp] theorem count_empty (b : ContextBudget) : b.count "" = 0 := rfl

/-- `_truncate`: a binary search for the longest prefix that fits. -/
def truncateLoop (b : ContextBudget) (render : List BudgetItem → String) (item : BudgetItem)
    (low high : Int) (best : Option BudgetItem) : Option BudgetItem :=
  if low ≤ high then
    let middle := (low + high) / 2
    let candidate := item.cutTo middle.toNat
    if b.count (render [candidate]) ≤ b.maxTokens then
      truncateLoop b render item (middle + 1) high (some candidate)
    else truncateLoop b render item low (middle - 1) best
  else best
termination_by (high + 1 - low).toNat
decreasing_by all_goals omega

def truncate (b : ContextBudget) (render : List BudgetItem → String) (item : BudgetItem) :
    Option BudgetItem :=
  truncateLoop b render item 8 ((item.text.length : Int) - 1) none

/-- What the fill has chosen so far. -/
structure Filling where
  remaining : Int
  chosen : Nat → Option BudgetItem
  groups : List String
  truncated : Bool

/-- `chosen[index] = item; remaining -= cost; groups.add(item.group)` -/
def Filling.choose (st : Filling) (index : Nat) (item : BudgetItem) (cost : Nat) : Filling :=
  { st with
    remaining := st.remaining - cost
    chosen := Function.update st.chosen index (some item)
    groups := st.groups ++ item.header.toList }

theorem Filling.choose_self (st : Filling) (index : Nat) (item : BudgetItem) (cost : Nat) :
    (st.choose index item cost).chosen index = some item := Function.update_self ..

theorem Filling.choose_other {i index : Nat} (h : i ≠ index) (st : Filling) (item : BudgetItem)
    (cost : Nat) : (st.choose index item cost).chosen i = st.chosen i := Function.update_of_ne h ..

/-- The estimate for a line, with its group's header if that is not there yet. -/
def cost (b : ContextBudget) (groups : List String) (item : BudgetItem) : Nat :=
  match item.header with
  | some header =>
      if header ∈ groups then b.count item.text + 1
      else b.count item.text + 1 + (b.count header + 1)
  | none => b.count item.text + 1

def fillStep (b : ContextBudget) (render : List BudgetItem → String) (items : List BudgetItem)
    (st : Filling) (rank index : Nat) : Filling :=
  match items[index]? with
  | none => st
  | some item =>
      if (b.cost st.groups item : Int) ≤ st.remaining then
        st.choose index item (b.cost st.groups item)
      else if rank = 0 then
        match b.truncate render item with
        | none => st
        | some cut => { st.choose index cut (b.count (render [cut])) with truncated := true }
      else st

/-- `for rank, index in enumerate(order)` -/
def fillFrom (b : ContextBudget) (render : List BudgetItem → String) (items : List BudgetItem) :
    Nat → List Nat → Filling → Filling
  | _, [], st => st
  | rank, index :: order, st =>
      fillFrom b render items (rank + 1) order (b.fillStep render items st rank index)

/-- `(_RANK[items[i].section], i) <= (_RANK[items[j].section], j)` -/
def ranksBefore (items : List BudgetItem) (i j : Nat) : Bool :=
  let rank := fun i => (items[i]?).map fun item => item.sectionName.rank
  decide ((rank i).getD 0 < (rank j).getD 0 ∨ (rank i).getD 0 = (rank j).getD 0 ∧ i ≤ j)

def priorityOrder (items : List BudgetItem) : List Nat :=
  (List.range items.length).mergeSort (ranksBefore items)

/-- `max(keep, key=lambda i: (_RANK[items[i].section], i))` -/
def worstOf (items : List BudgetItem) (first : Nat) (rest : List Nat) : Nat :=
  rest.foldl (fun worst i => if ranksBefore items i worst then worst else i) first

theorem worstOf_mem (items : List BudgetItem) (first : Nat) (rest : List Nat) :
    worstOf items first rest ∈ first :: rest := by
  induction rest generalizing first with
  | nil => exact List.mem_cons_self
  | cons i rest ih =>
      have h := ih (if ranksBefore items i first then first else i)
      rw [worstOf, List.foldl_cons]
      change worstOf items _ rest ∈ _
      rcases List.mem_cons.mp h with heq | hmem
      · rw [heq]
        split <;> simp
      · exact List.mem_cons_of_mem _ (List.mem_cons_of_mem _ hmem)

/-- `render([chosen[i] for i in keep]) if keep else ""` -/
def shownText (render : List BudgetItem → String) (chosen : Nat → Option BudgetItem)
    (keep : List Nat) : String :=
  if keep = [] then "" else render (keep.filterMap chosen)

/-- `while keep and self.count(text) > self.max_tokens: …` -/
def trim (b : ContextBudget) (render : List BudgetItem → String) (items : List BudgetItem)
    (chosen : Nat → Option BudgetItem) (top : Option Nat) (keep : List Nat) (truncated : Bool) :
    List Nat × Bool :=
  match keep with
  | [] => ([], truncated)
  | first :: rest =>
      if b.maxTokens < b.count (shownText render chosen (first :: rest)) then
        let worst := worstOf items first rest
        trim b render items chosen top ((first :: rest).erase worst)
          (truncated && decide (some worst ≠ top))
      else (first :: rest, truncated)
termination_by keep.length
decreasing_by
  rw [List.length_erase_of_mem (worstOf_mem items first rest), List.length_cons]
  omega

/-! ### What was used -/

structure SectionUsage where
  included : Nat := 0
  dropped : Nat := 0
  tokens : Nat := 0
  deriving DecidableEq, Repr

structure BudgetUsage where
  maxTokens : Nat
  usedTokens : Nat
  sections : List (BudgetSection × SectionUsage)
  truncated : Bool

namespace BudgetUsage

def included (u : BudgetUsage) : Nat := (u.sections.map fun s => s.2.included).sum

def dropped (u : BudgetUsage) : Nat := (u.sections.map fun s => s.2.dropped).sum

def remaining (u : BudgetUsage) : Nat := u.maxTokens - u.usedTokens

end BudgetUsage

def usageStep (b : ContextBudget) (chosen : Nat → Option BudgetItem) (keep : List Nat)
    (sections : BudgetSection → Option SectionUsage) (item : BudgetItem × Nat) :
    BudgetSection → Option SectionUsage :=
  let old := (sections item.1.sectionName).getD {}
  Function.update sections item.1.sectionName (some
    (if item.2 ∈ keep then
      { old with
        included := old.included + 1
        tokens := old.tokens + ((chosen item.2).elim 0 fun shown => b.count shown.text) }
    else { old with dropped := old.dropped + 1 }))

def usage (b : ContextBudget) (items : List BudgetItem) (chosen : Nat → Option BudgetItem)
    (keep : List Nat) (text : String) (truncated : Bool) : BudgetUsage :=
  let sections := items.zipIdx.foldl (b.usageStep chosen keep) fun _ => none
  { maxTokens := b.maxTokens
    usedTokens := b.count text
    sections := BudgetSection.all.filterMap fun name => (sections name).map (name, ·)
    truncated }

structure BudgetFit where
  items : List BudgetItem
  text : String
  usage : BudgetUsage

def fit (b : ContextBudget) (items : List BudgetItem)
    (render : List BudgetItem → String := renderLines) : BudgetFit :=
  let order := priorityOrder items
  let overhead := if items = [] then 0 else b.count (render [⟨.records, "", none, none⟩])
  let filled := b.fillFrom render items 0 order
    ⟨(b.maxTokens : Int) - overhead, fun _ => none, [], false⟩
  let trimmed := b.trim render items filled.chosen order.head?
    ((List.range items.length).filter fun i => (filled.chosen i).isSome) filled.truncated
  let text := shownText render filled.chosen trimmed.1
  ⟨trimmed.1.filterMap filled.chosen, text, b.usage items filled.chosen trimmed.1 text trimmed.2⟩

/-! ### The cut -/

section Cut

variable {b : ContextBudget} {render : List BudgetItem → String} {item cut : BudgetItem}

theorem truncateLoop_cut {low high : Int} {best : Option BudgetItem} (hlow : 8 ≤ low)
    (hhigh : high < item.text.length) (hbest : ∀ c, best = some c → c.IsCutOf item)
    (h : b.truncateLoop render item low high best = some cut) : cut.IsCutOf item := by
  fun_induction truncateLoop b render item low high best with
  | case1 low high best hle middle candidate hfits ih =>
      refine ih (by omega) hhigh (fun c hc => ?_) h
      obtain rfl := Option.some.inj hc
      exact ⟨middle.toNat, by omega, by omega, rfl⟩
  | case2 low high best hle middle candidate hfits ih =>
      exact ih hlow (by omega) hbest h
  | case3 low high best hle => exact hbest cut h

theorem truncate_cut (h : b.truncate render item = some cut) : cut.IsCutOf item := by
  refine truncateLoop_cut (Int.le_refl 8) ?_ (fun c hc => absurd hc (by simp)) h
  omega

end Cut

/-! ### The fill -/

/-- The lines as they are shown: at most the first one is cut. -/
def Shown (items : List BudgetItem) (top : Option Nat) (st : Filling) (shown : List BudgetItem) :
    Prop :=
  (∀ i x, st.chosen i = some x → shown[i]? = some x) ∧
    (st.truncated = false ∧ shown = items ∨
      st.truncated = true ∧ ∃ first item cut, top = some first ∧ items[first]? = some item ∧
        cut.IsCutOf item ∧ shown = items.set first cut ∧ st.chosen first = some cut)

section Fill

variable {b : ContextBudget} {render : List BudgetItem → String} {items shown : List BudgetItem}
  {top : Option Nat} {st : Filling}

variable (b render items st) in
/-- What a later line can do: nothing, or be chosen as it is. -/
theorem fillStep_later (rank index : Nat) :
    b.fillStep render items st (rank + 1) index = st ∨
      ∃ item, items[index]? = some item ∧
        b.fillStep render items st (rank + 1) index =
          st.choose index item (b.cost st.groups item) := by
  unfold fillStep
  cases hitem : items[index]? with
  | none => exact .inl rfl
  | some item =>
      dsimp only
      split
      · exact .inr ⟨item, rfl, rfl⟩
      · rw [if_neg (by omega)]
        exact .inl rfl

theorem Shown.later (h : Shown items top st shown) (rank index : Nat) (hindex : top ≠ some index) :
    Shown items top (b.fillStep render items st (rank + 1) index) shown := by
  rcases fillStep_later b render items st rank index with
    heq | ⟨item, hitem, heq⟩
  · rw [heq]
    exact h
  · rw [heq]
    obtain ⟨hchosen, hcut⟩ := h
    refine ⟨fun i x hx => ?_, ?_⟩
    · by_cases hi : i = index
      · obtain rfl := hi
        rw [Filling.choose_self] at hx
        obtain rfl := Option.some.inj hx
        rcases hcut with ⟨-, rfl⟩ | ⟨-, first, old, cut, htop, -, -, rfl, -⟩
        · exact hitem
        · have hne : first ≠ i := by
            rintro rfl
            exact hindex htop
          rw [List.getElem?_set_ne hne]
          exact hitem
      · rw [Filling.choose_other hi] at hx
        exact hchosen i x hx
    · rcases hcut with hwhole | ⟨htrunc, first, old, cut, htop, hold, hiscut, hshown, hfirst⟩
      · exact .inl hwhole
      · have hne : first ≠ index := by
          rintro rfl
          exact hindex htop
        refine .inr ⟨htrunc, first, old, cut, htop, hold, hiscut, hshown, ?_⟩
        rw [Filling.choose_other hne]
        exact hfirst

theorem Shown.fillFrom (order : List Nat) (rank : Nat) (h : Shown items top st shown)
    (horder : ∀ index ∈ order, top ≠ some index) :
    Shown items top (b.fillFrom render items (rank + 1) order st) shown := by
  induction order generalizing st rank with
  | nil => exact h
  | cons index order ih =>
      obtain ⟨hindex, hrest⟩ := List.forall_mem_cons.mp horder
      exact ih (rank + 1) (h.later rank index hindex) hrest

variable (b render items) in
/-- The first line is the one that may be cut. -/
theorem shown_first (index : Nat) (remaining : Int) :
    ∃ shown, Shown items (some index)
      (b.fillStep render items ⟨remaining, fun _ => none, [], false⟩ 0 index) shown := by
  have hnone : Shown items (some index) ⟨remaining, fun _ => none, [], false⟩ items :=
    ⟨fun i x hx => absurd hx (by simp), .inl ⟨rfl, rfl⟩⟩
  unfold fillStep
  cases hitem : items[index]? with
  | none => exact ⟨items, hnone⟩
  | some item =>
      dsimp only
      split
      · refine ⟨items, fun i x hx => ?_, .inl ⟨rfl, rfl⟩⟩
        by_cases hi : i = index
        · obtain rfl := hi
          rw [Filling.choose_self] at hx
          exact hitem.trans hx
        · rw [Filling.choose_other hi] at hx
          cases hx
      · rw [if_pos rfl]
        cases hcut : b.truncate render item with
        | none => exact ⟨items, hnone⟩
        | some cut =>
            have hlt : index < items.length := (List.getElem?_eq_some_iff.mp hitem).1
            refine ⟨items.set index cut, fun i x hx => ?_, .inr ⟨rfl, index, item, cut, rfl, hitem,
              truncate_cut hcut, rfl, Filling.choose_self _ _ _ (b.count (render [cut]))⟩⟩
            by_cases hi : i = index
            · obtain rfl := hi
              rw [List.getElem?_set_self hlt]
              exact (Filling.choose_self _ _ _ (b.count (render [cut]))).symm.trans hx
            · have hleft := (Filling.choose_other hi _ _ (b.count (render [cut]))).symm.trans hx
              cases hleft

variable (b render items) in
theorem exists_shown (order : List Nat) (horder : order.Nodup) (remaining : Int) :
    ∃ shown, Shown items order.head?
      (b.fillFrom render items 0 order ⟨remaining, fun _ => none, [], false⟩) shown := by
  cases order with
  | nil => exact ⟨items, fun i x hx => absurd hx (by simp [fillFrom]), .inl ⟨rfl, rfl⟩⟩
  | cons index order =>
      obtain ⟨hindex, -⟩ := List.nodup_cons.mp horder
      obtain ⟨shown, hshown⟩ := shown_first b render items index remaining
      exact ⟨shown, hshown.fillFrom order 0 fun other hother heq =>
        hindex (Option.some.inj heq ▸ hother)⟩

end Fill

/-! ### The repair -/

section Trim

variable {b : ContextBudget} {render : List BudgetItem → String} {items : List BudgetItem}
  {chosen : Nat → Option BudgetItem} {top : Option Nat}

variable (b render items chosen top) in
theorem trim_sublist (keep : List Nat) (truncated : Bool) :
    (b.trim render items chosen top keep truncated).1.Sublist keep := by
  fun_induction trim b render items chosen top keep truncated with
  | case1 truncated => exact List.Sublist.refl []
  | case2 truncated first rest hover worst ih => exact ih.trans List.erase_sublist
  | case3 truncated first rest hfits => exact List.Sublist.refl _

variable (b render items chosen top) in
theorem trim_bound (keep : List Nat) (truncated : Bool) :
    b.count (shownText render chosen (b.trim render items chosen top keep truncated).1) ≤
      b.maxTokens := by
  fun_induction trim b render items chosen top keep truncated with
  | case1 truncated => exact Nat.zero_le _
  | case2 truncated first rest hover worst ih => exact ih
  | case3 truncated first rest hfits => exact Nat.le_of_not_lt hfits

variable (b render items chosen top) in
/-- A block is cut as long as the line that was cut is in it. -/
theorem trim_truncated (keep : List Nat) (truncated : Bool) (hkeep : keep.Nodup)
    (htop : truncated = true → ∃ first, top = some first ∧ first ∈ keep) :
    (b.trim render items chosen top keep truncated).2 = true ↔ truncated = true ∧
      ∃ first, top = some first ∧
        first ∈ (b.trim render items chosen top keep truncated).1 := by
  fun_induction trim b render items chosen top keep truncated with
  | case1 truncated => exact ⟨fun h => ⟨h, htop h⟩, fun h => h.1⟩
  | case3 truncated first rest hfits => exact ⟨fun h => ⟨h, htop h⟩, fun h => h.1⟩
  | case2 truncated first rest hover worst ih =>
      have hstill : (truncated && decide (some worst ≠ top)) = true →
          ∃ i, top = some i ∧ i ∈ (first :: rest).erase worst := by
        intro h
        obtain ⟨htrunc, hworst⟩ : truncated = true ∧ some worst ≠ top := by simpa using h
        obtain ⟨i, rfl, hi⟩ := htop htrunc
        exact ⟨i, rfl, (List.mem_erase_of_ne fun heq => hworst (by rw [heq])).mpr hi⟩
      rw [ih (hkeep.erase worst) hstill]
      constructor
      · rintro ⟨h, hmem⟩
        exact ⟨(Bool.and_eq_true_iff.mp h).1, hmem⟩
      · rintro ⟨htrunc, i, rfl, hi⟩
        refine ⟨?_, i, rfl, hi⟩
        have hin := (trim_sublist _ _ _ _ _ _ _).subset hi
        have hne : worst ≠ i := by
          rintro rfl
          exact hkeep.not_mem_erase hin
        simp [htrunc, hne]

end Trim

/-! ### The counts -/

section Counts

variable {b : ContextBudget} {chosen : Nat → Option BudgetItem} {keep : List Nat}

/-- What one section used. -/
def sectionUsage (b : ContextBudget) (chosen : Nat → Option BudgetItem) (keep : List Nat)
    (items : List (BudgetItem × Nat)) (name : BudgetSection) : SectionUsage where
  included := items.countP fun x => decide (x.2 ∈ keep) && decide (x.1.sectionName = name)
  dropped := items.countP fun x => !decide (x.2 ∈ keep) && decide (x.1.sectionName = name)
  tokens := ((items.filter fun x => decide (x.2 ∈ keep) && decide (x.1.sectionName = name)).map
    fun x => (chosen x.2).elim 0 fun shown => b.count shown.text).sum

theorem foldl_usageStep (items : List (BudgetItem × Nat)) (name : BudgetSection) :
    ((items.foldl (b.usageStep chosen keep) fun _ => none) name).getD {} =
      b.sectionUsage chosen keep items name := by
  induction items using List.reverseRecOn with
  | nil => rfl
  | append_singleton items x ih =>
      rw [List.foldl_append, List.foldl_cons, List.foldl_nil, usageStep]
      by_cases hname : x.1.sectionName = name
      · subst hname
        rw [Function.update_self, Option.getD_some, ih]
        by_cases hkeep : x.2 ∈ keep
        · simp [sectionUsage, List.countP_append, List.filter_append, hkeep]
        · simp [sectionUsage, List.countP_append, List.filter_append, hkeep]
      · rw [Function.update_of_ne (Ne.symm hname), ih]
        simp [sectionUsage, List.countP_append, List.filter_append, hname]

variable (b chosen keep) in
theorem isSome_foldl_usageStep (items : List (BudgetItem × Nat)) (name : BudgetSection) :
    ((items.foldl (b.usageStep chosen keep) fun _ => none) name).isSome =
      items.any fun x => x.1.sectionName = name := by
  induction items using List.reverseRecOn with
  | nil => rfl
  | append_singleton items x ih =>
      rw [List.foldl_append, List.foldl_cons, List.foldl_nil, usageStep, List.any_append]
      by_cases hname : x.1.sectionName = name
      · subst hname
        simp
      · rw [Function.update_of_ne (Ne.symm hname), ih]
        simp [hname]

theorem sum_sections {f : SectionUsage → Nat} (hf : f {} = 0)
    (sections : BudgetSection → Option SectionUsage) (names : List BudgetSection) :
    ((names.filterMap fun name => (sections name).map (name, ·)).map fun s => f s.2).sum =
      (names.map fun name => f ((sections name).getD {})).sum := by
  induction names with
  | nil => rfl
  | cons name names ih =>
      rw [List.map_cons, List.sum_cons, ← ih]
      cases hname : sections name with
      | none => simp [hname, hf]
      | some use => simp [hname]

/-- Every line is counted in one section. -/
theorem sum_countP_sections (p : BudgetItem × Nat → Bool) (items : List (BudgetItem × Nat)) :
    (BudgetSection.all.map fun name =>
      items.countP fun x => p x && decide (x.1.sectionName = name)).sum = items.countP p := by
  induction items with
  | nil => simp [BudgetSection.all]
  | cons x items ih =>
      simp only [List.countP_cons]
      rw [List.sum_map_add, ih]
      congr 1
      cases p x with
      | false => simp [BudgetSection.all]
      | true => cases x.1.sectionName <;> decide

theorem usage_included (items : List BudgetItem) (text : String) (truncated : Bool) :
    (b.usage items chosen keep text truncated).included =
      items.zipIdx.countP fun x => decide (x.2 ∈ keep) := by
  rw [BudgetUsage.included, usage, sum_sections rfl]
  simp only [foldl_usageStep, sectionUsage]
  exact sum_countP_sections _ _

theorem usage_dropped (items : List BudgetItem) (text : String) (truncated : Bool) :
    (b.usage items chosen keep text truncated).dropped =
      items.zipIdx.countP fun x => !decide (x.2 ∈ keep) := by
  rw [BudgetUsage.dropped, usage, sum_sections rfl]
  simp only [foldl_usageStep, sectionUsage]
  exact sum_countP_sections _ _

theorem mem_usage_sections {items : List BudgetItem} {text : String} {truncated : Bool}
    {name : BudgetSection} {use : SectionUsage}
    (h : (name, use) ∈ (b.usage items chosen keep text truncated).sections) :
    use = b.sectionUsage chosen keep items.zipIdx name := by
  obtain ⟨name', -, hsection⟩ := List.mem_filterMap.mp h
  obtain ⟨use', huse, heq⟩ := Option.map_eq_some_iff.mp hsection
  obtain ⟨rfl, rfl⟩ := Prod.mk.inj heq
  rw [← foldl_usageStep, huse, Option.getD_some]

theorem usage_lists {items : List BudgetItem} {item : BudgetItem} (h : item ∈ items) (text : String)
    (truncated : Bool) :
    ∃ use, (item.sectionName, use) ∈ (b.usage items chosen keep text truncated).sections := by
  have hsome := isSome_foldl_usageStep b chosen keep items.zipIdx item.sectionName
  have hany : (items.zipIdx.any fun x => x.1.sectionName = item.sectionName) = true := by
    obtain ⟨i, hi⟩ := List.mem_iff_getElem?.mp h
    exact List.any_eq_true.mpr ⟨(item, i), List.mem_zipIdx_iff_getElem?.mpr hi, by simp⟩
  obtain ⟨use, huse⟩ := Option.isSome_iff_exists.mp (hsome.trans hany)
  exact ⟨use, List.mem_filterMap.mpr ⟨_, item.sectionName.mem_all, by rw [huse]; rfl⟩⟩

end Counts

/-! ### A sound fit -/

/-- The line whose section has the highest priority, and the first of those. -/
def FirstPriority (items : List BudgetItem) (first : Nat) : Prop :=
  first < items.length ∧ ∀ j < items.length, ranksBefore items first j = true

/-- What a fit promises. -/
structure SoundFit (b : ContextBudget) (render : List BudgetItem → String)
    (items : List BudgetItem) (fit : BudgetFit) : Prop where
  text : fit.text = render fit.items
  bound : b.count fit.text ≤ b.maxTokens
  used : fit.usage.usedTokens = b.count fit.text
  kept : ∃ keep shown, fit.items = pick keep shown ∧
    (fit.usage.truncated = false ∧ shown = items ∨
      fit.usage.truncated = true ∧ ∃ first item cut, FirstPriority items first ∧
        items[first]? = some item ∧ cut.IsCutOf item ∧ shown = items.set first cut ∧
        keep first = true)
  included : fit.usage.included = fit.items.length
  dropped : fit.usage.included + fit.usage.dropped = items.length
  sections : ∀ name use, (name, use) ∈ fit.usage.sections →
    use.included = (fit.items.countP fun item => item.sectionName = name) ∧
      use.included + use.dropped = items.countP fun item => item.sectionName = name
  listed : ∀ item ∈ items, ∃ use, (item.sectionName, use) ∈ fit.usage.sections

theorem pick_eq_filterMap {α : Type} (keep : Nat → Bool) (items : List α) :
    pick keep items =
      (List.range items.length).filterMap fun i => if keep i then items[i]? else none := by
  induction items using List.reverseRecOn with
  | nil => rfl
  | append_singleton items x ih =>
      rw [pick, List.zipIdx_append, List.filter_append, List.map_append, ← pick, ih,
        List.length_append, List.length_singleton, List.range_succ, List.filterMap_append]
      congr 1
      · refine List.filterMap_congr fun i hi => ?_
        rw [List.getElem?_append_left (List.mem_range.mp hi)]
      · by_cases hkeep : keep items.length = true <;> simp [hkeep]

theorem countP_pick {α : Type} (keep : Nat → Bool) (p : α → Bool) (items : List α) :
    (pick keep items).countP p = items.zipIdx.countP fun x => keep x.2 && p x.1 := by
  rw [pick, List.countP_map, List.countP_filter]
  exact List.countP_congr fun x _ => by simp [and_comm]

/-- Counts over places and sections do not see the texts. -/
theorem countP_sections {items shown : List BudgetItem}
    (h : shown.map BudgetItem.sectionName = items.map BudgetItem.sectionName)
    (p : BudgetSection → Nat → Bool) :
    (shown.zipIdx.countP fun x => p x.1.sectionName x.2) =
      items.zipIdx.countP fun x => p x.1.sectionName x.2 := by
  have hmap : ∀ l : List BudgetItem, (l.zipIdx.countP fun x => p x.1.sectionName x.2) =
      (l.map BudgetItem.sectionName).zipIdx.countP fun x => p x.1 x.2 := by
    intro l
    rw [List.zipIdx_map, List.countP_map]
    rfl
  rw [hmap, hmap, h]

theorem Shown.sections {items shown : List BudgetItem} {top : Option Nat} {st : Filling}
    (h : Shown items top st shown) :
    shown.map BudgetItem.sectionName = items.map BudgetItem.sectionName := by
  rcases h.2 with ⟨-, rfl⟩ | ⟨-, first, item, cut, -, hitem, ⟨n, -, -, rfl⟩, rfl, -⟩
  · rfl
  · rw [List.map_set]
    obtain ⟨hlt, rfl⟩ := List.getElem?_eq_some_iff.mp hitem
    have hlt' : first < (items.map BudgetItem.sectionName).length := by simpa using hlt
    have hself : (items[first].cutTo n).sectionName =
        (items.map BudgetItem.sectionName)[first] := by
      rw [List.getElem_map]
      rfl
    rw [hself, List.set_getElem_self]

theorem firstPriority_of_head {items : List BudgetItem} {first : Nat}
    (h : (priorityOrder items).head? = some first) : FirstPriority items first := by
  have hperm : (priorityOrder items).Perm (List.range items.length) := List.mergeSort_perm ..
  have hsorted : (priorityOrder items).Pairwise fun i j => ranksBefore items i j = true := by
    refine List.pairwise_mergeSort (fun i j k => ?_) (fun i j => ?_) _
    · simp only [ranksBefore, decide_eq_true_eq]
      omega
    · simp only [ranksBefore, Bool.or_eq_true, decide_eq_true_eq]
      omega
  obtain ⟨rest, horder⟩ : ∃ rest, priorityOrder items = first :: rest := by
    cases horder : priorityOrder items with
    | nil => rw [horder] at h; cases h
    | cons i rest =>
        rw [horder, List.head?_cons] at h
        exact ⟨rest, by rw [Option.some.inj h]⟩
  have hmem : ∀ j, j ∈ priorityOrder items ↔ j < items.length := fun j =>
    (hperm.mem_iff).trans List.mem_range
  refine ⟨(hmem first).mp (by rw [horder]; exact List.mem_cons_self), fun j hj => ?_⟩
  have hin := (hmem j).mpr hj
  rw [horder] at hin hsorted
  rcases List.mem_cons.mp hin with rfl | hrest
  · simp [ranksBefore]
  · exact (List.pairwise_cons.mp hsorted).1 j hrest

theorem filter_mem_of_sublist {l keep : List Nat} (h : keep.Sublist l) (hl : l.Nodup) :
    l.filter (fun i => i ∈ keep) = keep := by
  induction h with
  | slnil => rfl
  | @cons keep l i h ih =>
      obtain ⟨hi, hl⟩ := List.nodup_cons.mp hl
      rw [List.filter_cons_of_neg (by simpa using fun hin => hi (h.subset hin)), ih hl]
  | @cons_cons keep l i h ih =>
      obtain ⟨hi, hl⟩ := List.nodup_cons.mp hl
      rw [List.filter_cons_of_pos (by simp)]
      congr 1
      refine (List.filter_congr fun j hj => ?_).trans (ih hl)
      have hne : j ≠ i := fun heq => hi (heq ▸ hj)
      simp [hne]

/-- What is chosen at kept places is the pick of what is shown. -/
theorem filterMap_chosen {keep : List Nat} {chosen : Nat → Option BudgetItem}
    {shown : List BudgetItem} (hkeep : keep.Sublist (List.range shown.length))
    (hchosen : ∀ i ∈ keep, ∃ x, chosen i = some x)
    (hshown : ∀ i x, chosen i = some x → shown[i]? = some x) :
    keep.filterMap chosen = pick (fun i => i ∈ keep) shown := by
  rw [pick_eq_filterMap]
  conv => lhs; rw [← filter_mem_of_sublist hkeep List.nodup_range, List.filterMap_filter]
  refine List.filterMap_congr fun i _ => ?_
  by_cases hi : i ∈ keep
  · obtain ⟨x, hx⟩ := hchosen i hi
    simp [hi, hx, hshown i x hx]
  · simp [hi]

theorem countP_split {α : Type} (p q : α → Bool) (l : List α) :
    (l.countP fun x => p x && q x) + (l.countP fun x => !p x && q x) = l.countP q := by
  induction l with
  | nil => rfl
  | cons x l ih =>
      simp only [List.countP_cons, ← ih]
      cases p x <;> cases q x <;> simp <;> omega

/-- A cut line that is taken out again leaves no trace. -/
theorem pick_set {α : Type} {keep : Nat → Bool} {i : Nat} (h : keep i = false) (items : List α)
    (x : α) : pick keep (items.set i x) = pick keep items := by
  rw [pick_eq_filterMap, pick_eq_filterMap, List.length_set]
  refine List.filterMap_congr fun j _ => ?_
  by_cases hj : keep j = true
  · have hne : i ≠ j := by
      rintro rfl
      rw [h] at hj
      cases hj
    rw [List.getElem?_set_ne hne]
  · rw [if_neg hj, if_neg hj]

/-- The fit is sound for every renderer of nothing as nothing. -/
theorem fit_sound (b : ContextBudget) (items : List BudgetItem)
    (render : List BudgetItem → String) (hrender : render [] = "") :
    SoundFit b render items (b.fit items render) := by
  have horder : (priorityOrder items).Nodup :=
    (List.mergeSort_perm _ _).nodup_iff.mpr List.nodup_range
  unfold fit
  dsimp only
  generalize (b.maxTokens : Int) - _ = remaining
  obtain ⟨shown, hshown⟩ := exists_shown b render items (priorityOrder items) horder remaining
  generalize hfilled : b.fillFrom render items 0 (priorityOrder items) _ = filled at hshown ⊢
  obtain ⟨hchosen, hcut⟩ := hshown
  have hlength : shown.length = items.length := by
    have h := congrArg List.length (Shown.sections ⟨hchosen, hcut⟩)
    simpa using h
  have hkeepNodup : ((List.range items.length).filter fun i => (filled.chosen i).isSome).Nodup :=
    List.nodup_range.filter _
  have htop : filled.truncated = true → ∃ first, (priorityOrder items).head? = some first ∧
      first ∈ (List.range items.length).filter fun i => (filled.chosen i).isSome := by
    intro htrunc
    rcases hcut with ⟨hwhole, -⟩ | ⟨-, first, item, cut, hfirst, hitem, -, -, hsome⟩
    · rw [hwhole] at htrunc
      cases htrunc
    · refine ⟨first, hfirst, List.mem_filter.mpr ⟨List.mem_range.mpr ?_, by simp [hsome]⟩⟩
      exact (List.getElem?_eq_some_iff.mp hitem).1
  have hsub := trim_sublist b render items filled.chosen (priorityOrder items).head?
    ((List.range items.length).filter fun i => (filled.chosen i).isSome) filled.truncated
  have hbound := trim_bound b render items filled.chosen (priorityOrder items).head?
    ((List.range items.length).filter fun i => (filled.chosen i).isSome) filled.truncated
  have htrunc := trim_truncated b render items filled.chosen (priorityOrder items).head? _ _ hkeepNodup
    htop
  generalize b.trim render items filled.chosen _ _ _ = trimmed at hsub hbound htrunc ⊢
  have hpick : trimmed.1.filterMap filled.chosen = pick (fun i => i ∈ trimmed.1) shown := by
    refine filterMap_chosen ?_ (fun i hi => ?_) hchosen
    · rw [hlength]
      exact hsub.trans List.filter_sublist
    · exact Option.isSome_iff_exists.mp (List.mem_filter.mp (hsub.subset hi)).2
  have hcount : ∀ p : BudgetSection → Bool,
      ((pick (fun i => i ∈ trimmed.1) shown).countP fun item => p item.sectionName) =
        items.zipIdx.countP fun x => decide (x.2 ∈ trimmed.1) && p x.1.sectionName := by
    intro p
    rw [countP_pick]
    exact countP_sections (Shown.sections ⟨hchosen, hcut⟩) fun name i =>
      decide (i ∈ trimmed.1) && p name
  have hincluded : (pick (fun i => i ∈ trimmed.1) shown).length =
      items.zipIdx.countP fun x => decide (x.2 ∈ trimmed.1) := by
    have h := hcount fun _ => true
    rw [List.countP_true] at h
    simpa using h
  constructor
  · show shownText render filled.chosen trimmed.1 = render (trimmed.1.filterMap filled.chosen)
    rw [shownText]
    split
    · rename_i hnil
      rw [hnil, List.filterMap_nil, hrender]
    · rfl
  · exact hbound
  · rfl
  · refine ⟨fun i => i ∈ trimmed.1, ?_⟩
    rcases hcut with ⟨hwhole, rfl⟩ | ⟨hcutAway, first, item, cut, hfirst, hitem, hiscut, rfl, hsome⟩
    · refine ⟨shown, hpick, .inl ⟨?_, rfl⟩⟩
      show trimmed.2 = false
      rw [hwhole] at htrunc
      simpa using htrunc
    · by_cases hin : first ∈ trimmed.1
      · refine ⟨_, hpick, .inr ⟨htrunc.mpr ⟨hcutAway, first, hfirst, hin⟩, first, item, cut,
          firstPriority_of_head hfirst, hitem, hiscut, rfl, by simpa using hin⟩⟩
      · refine ⟨items, hpick.trans (pick_set (by simpa using hin) items cut), .inl ⟨?_, rfl⟩⟩
        show trimmed.2 = false
        rw [hfirst] at htrunc
        simpa [hin] using htrunc
  · show (b.usage items filled.chosen trimmed.1 _ trimmed.2).included =
      (trimmed.1.filterMap filled.chosen).length
    rw [usage_included, hpick, hincluded]
  · show (b.usage items filled.chosen trimmed.1 _ trimmed.2).included +
      (b.usage items filled.chosen trimmed.1 _ trimmed.2).dropped = items.length
    have hsplit := countP_split (fun x : BudgetItem × Nat => decide (x.2 ∈ trimmed.1))
      (fun _ => true) items.zipIdx
    simp only [Bool.and_true] at hsplit
    rw [usage_included, usage_dropped, hsplit, List.countP_true, List.length_zipIdx]
  · intro name use huse
    obtain rfl := mem_usage_sections huse
    have hsplit := countP_split (fun x : BudgetItem × Nat => decide (x.2 ∈ trimmed.1))
      (fun x => decide (x.1.sectionName = name)) items.zipIdx
    refine ⟨?_, hsplit.trans ?_⟩
    · show _ = (trimmed.1.filterMap filled.chosen).countP _
      rw [hpick]
      exact (hcount fun name' => name' = name).symm
    · have hfst := List.countP_map (p := fun item : BudgetItem => decide (item.sectionName = name))
        (f := Prod.fst) (l := items.zipIdx)
      rw [List.zipIdx_map_fst] at hfst
      exact hfst.symm
  · exact fun item hitem => usage_lists hitem _ _

/-- A correction that is too long for the cap, next to a fact that is not. -/
theorem fit_sound_correction :
    let b : ContextBudget := { maxTokens := 9, tokenCounter := some fun text => text.length / 3 }
    let items : List BudgetItem := [{ sectionName := .facts, text := "port: 80" },
      { sectionName := .corrections, text := "The deploy host is alpha, not beta." }]
    SoundFit b renderLines items (b.fit items renderLines) :=
  fit_sound _ _ _ (by rfl)

end ContextBudget

end MarkSdk
