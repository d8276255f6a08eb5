import Mathlib.Data.List.Basic
import Mathlib.Data.List.Sort
import Mathlib.Tactic.IntervalCases

/-!
The sliding window over a conversation.

`split_history` keeps the system messages, the last messages besides them and
the latest user turn. Where the window would start with the results of tool
calls, it is drawn back to the assistant message that made the calls.
-/

namespace MarkSdk

/-! ### Messages -/

inductive MessageRole : Type
  | user | assistant | tool | system
  | other (raw : String)
  deriving DecidableEq, Repr

/-- `_ROLE_ALIASES`; what is not in it stays as it is. -/
def roleAlias (raw : String) : MessageRole :=
  match raw with
  | "human" | "user" => .user
  | "ai" | "assistant" => .assistant
  | "tool" | "function" => .tool
  | "system" | "developer" => .system
  | raw => .other raw

/-- A dictionary, or an object with attributes. -/
structure Message where
  isDict : Bool
  role : Option String := none
  type : Option String := none

/-- `a or b` of texts that may be missing. -/
def orText (a b : Option String) : Option String :=
  match a with
  | some text => if text = "" then b else some text
  | none => b

def messageRole (m : Message) : MessageRole :=
  roleAlias ((orText (orText (if m.isDict then m.role else none) m.type) m.role).getD "")

/-! ### The split -/

structure HistorySplit (α : Type) where
  kept : List α
  dropped : List α
  deriving DecidableEq, Repr

section Split

variable {α : Type} (role : α → MessageRole)

/-- The messages besides the system's, with their places. -/
def historyBody (items : List α) : List (α × Nat) :=
  items.zipIdx.filter fun m => role m.1 ≠ .system

/-- `message_role(items[body[i]]) == "tool"` -/
def toolAt (body : List (α × Nat)) (i : Nat) : Bool := (body[i]?).any fun m => role m.1 = .tool

/-- `while start > 0 and message_role(items[body[start]]) == "tool": start -= 1` -/
def walkBack (body : List (α × Nat)) : Nat → Nat
  | 0 => 0
  | start + 1 => if toolAt role body (start + 1) then walkBack body start else start + 1

/-- The window, with the latest user turn in front if it is older. -/
def historyWindow (body : List (α × Nat)) (keepLast : Nat) : List (α × Nat) :=
  -- results at the very front have lost the message that made the calls
  let window := (body.drop (walkBack role body (body.length - keepLast))).dropWhile
    fun m => role m.1 = .tool
  match (body.filter fun m => role m.1 = .user).getLast? with
  | some user => if window.any fun m => m.2 = user.2 then window else user :: window
  | none => window

/-- `i in keep` -/
def keepsMessage (window : List (α × Nat)) (m : α × Nat) : Bool :=
  window.any (fun w => w.2 = m.2) || role m.1 = .system

def splitHistory (items : List α) (keepLast : Nat) : Except String (HistorySplit α) :=
  if keepLast < 1 then .error "keep_last must be >= 1 (the current turn is always kept)"
  else
    let body := historyBody role items
    if body.length ≤ keepLast then .ok ⟨items, []⟩
    else
      let keep := keepsMessage role (historyWindow role body keepLast)
      .ok ⟨(items.zipIdx.filter keep).map Prod.fst, (body.filter fun m => !keep m).map Prod.fst⟩

/-- The message at `a` made the calls that the result at `t` answers: besides
system messages there are only results between them. -/
structure CallsTool (items : List α) (a t : Nat) : Prop where
  before : a < t
  assistant : (items[a]?).map role = some .assistant
  between : ∀ i, a < i → i < t → ∀ m, items[i]? = some m → role m = .tool ∨ role m = .system

/-- The messages at the places that `keep` names. -/
def pick (keep : Nat → Bool) (items : List α) : List α :=
  (items.zipIdx.filter fun m => keep m.2).map Prod.fst

/-- What a split promises. -/
structure SafeSplit (items : List α) (keepLast : Nat) (split : HistorySplit α)
    (keep : Nat → Bool) : Prop where
  kept : split.kept = pick keep items
  dropped : split.dropped = pick (fun i => !keep i) items
  system : ∀ i m, items[i]? = some m → role m = .system → keep i = true
  lastUser : ∀ i m, items[i]? = some m → role m = .user →
    (∀ j m', i < j → items[j]? = some m' → role m' ≠ .user) → keep i = true
  recent : ∀ i m, items[i]? = some m → role m ≠ .system →
    ((items.drop (i + 1)).filter fun m => role m ≠ .system).length < keepLast → keep i = true
  calls : ∀ a t m, items[t]? = some m → role m = .tool → keep t = true →
    CallsTool role items a t → keep a = true
  again : splitHistory role split.kept keepLast = .ok ⟨split.kept, []⟩

end Split

/-! ### The window over the body -/

section Window

variable {α : Type} {role : α → MessageRole} {body : List (α × Nat)}

/-- Every result follows the message that made its call, with only other
results between them. -/
def Answered (role : α → MessageRole) (body : List (α × Nat)) : Prop :=
  ∀ j, toolAt role body j = true →
    ∃ i < j, toolAt role body i = false ∧ ∀ k, i < k → k < j → toolAt role body k = true

theorem walkBack_le (n : Nat) : walkBack role body n ≤ n := by
  induction n with
  | zero => exact Nat.le_refl 0
  | succ n ih =>
      unfold walkBack
      split
      · omega
      · exact Nat.le_refl _

/-- Only results are walked over. -/
theorem toolAt_of_walkBack {n j : Nat} (hlow : walkBack role body n < j) (hj : j ≤ n) :
    toolAt role body j = true := by
  induction n with
  | zero => omega
  | succ n ih =>
      unfold walkBack at hlow
      split at hlow
      · rename_i htool
        by_cases hlast : j = n + 1
        · exact hlast ▸ htool
        · exact ih hlow (by omega)
      · omega

variable (role body) in
theorem walkBack_stops (n : Nat) :
    walkBack role body n = 0 ∨ toolAt role body (walkBack role body n) = false := by
  induction n with
  | zero => exact .inl rfl
  | succ n ih =>
      unfold walkBack
      split
      · exact ih
      · rename_i htool
        exact .inr (by simpa using htool)

/-- The walk goes over results, down to what is none. -/
theorem walkBack_eq {n low : Nat} (hle : low ≤ n) (hstop : low = 0 ∨ toolAt role body low = false)
    (htools : ∀ j, low < j → j ≤ n → toolAt role body j = true) : walkBack role body n = low := by
  induction n with
  | zero =>
      obtain rfl : low = 0 := by omega
      rfl
  | succ n ih =>
      unfold walkBack
      by_cases hlow : low = n + 1
      · obtain rfl := hlow
        have hnone : toolAt role body (n + 1) = false := by
          rcases hstop with h | h
          · omega
          · exact h
        rw [if_neg (by simp [hnone])]
      · rw [if_pos (htools (n + 1) (by omega) (Nat.le_refl _))]
        exact ih (by omega) fun j hj hjn => htools j hj (by omega)

theorem dropWhile_eq_self {low : Nat} (hstop : toolAt role body low = false) :
    (body.drop low).dropWhile (fun m => role m.1 = .tool) = body.drop low := by
  cases hdrop : body.drop low with
  | nil => rfl
  | cons m rest =>
      have hget : body[low]? = some m := by
        rw [← List.head?_drop, hdrop, List.head?_cons]
      rw [List.dropWhile_cons_of_neg]
      simpa [toolAt, hget] using hstop

/-- Where the window starts. -/
theorem Answered.start (h : Answered role body) (n : Nat) :
    toolAt role body (walkBack role body n) = false := by
  rcases walkBack_stops role body n with hzero | hstop
  · rw [hzero]
    cases htool : toolAt role body 0 with
    | false => rfl
    | true =>
        obtain ⟨i, hi, -⟩ := h 0 htool
        omega
  · exact hstop

/-- The window is the end of the body from a message that is no result, with
the latest user turn before it if it is not in it. -/
theorem Answered.window (h : Answered role body) (keepLast : Nat) :
    historyWindow role body keepLast =
      match (body.filter fun m => role m.1 = .user).getLast? with
      | some user =>
          if (body.drop (walkBack role body (body.length - keepLast))).any
              fun m => m.2 = user.2 then
            body.drop (walkBack role body (body.length - keepLast))
          else user :: body.drop (walkBack role body (body.length - keepLast))
      | none => body.drop (walkBack role body (body.length - keepLast)) := by
  unfold historyWindow
  rw [dropWhile_eq_self (h.start _)]

/-- What the window holds besides its end is the latest user turn. -/
theorem Answered.mem_window (h : Answered role body) {keepLast : Nat} {m : α × Nat}
    (hm : m ∈ historyWindow role body keepLast) :
    m ∈ body.drop (walkBack role body (body.length - keepLast)) ∨ role m.1 = .user := by
  rw [h.window] at hm
  split at hm
  · rename_i user huser
    split at hm
    · exact .inl hm
    · rcases List.mem_cons.mp hm with rfl | hm
      · have hmem := List.mem_of_getLast? huser
        exact .inr (by simpa using (List.mem_filter.mp hmem).2)
      · exact .inl hm
  · exact .inl hm

theorem Answered.mem_window_of_drop (h : Answered role body) {keepLast : Nat} {m : α × Nat}
    (hm : m ∈ body.drop (walkBack role body (body.length - keepLast))) :
    m ∈ historyWindow role body keepLast := by
  rw [h.window]
  split
  · split
    · exact hm
    · exact List.mem_cons_of_mem _ hm
  · exact hm

theorem lastUser_mem_window {keepLast : Nat} {user : α × Nat}
    (huser : (body.filter fun m => role m.1 = .user).getLast? = some user) :
    (historyWindow role body keepLast).any (fun m => m.2 = user.2) = true := by
  unfold historyWindow
  rw [huser]
  dsimp only
  split
  · assumption
  · simp

/-- The last user turn, with what comes before and after it. -/
theorem split_at_lastUser {user : α × Nat}
    (huser : (body.filter fun m => role m.1 = .user).getLast? = some user) :
    ∃ pre post, body = pre ++ user :: post ∧ ∀ m ∈ post, role m.1 ≠ .user := by
  obtain ⟨users, husers⟩ := List.getLast?_eq_some_iff.mp huser
  obtain ⟨pre, rest, rfl, -, hrest⟩ := List.filter_eq_append_iff.mp husers
  obtain ⟨between, post, rfl, -, -, hpost⟩ := List.filter_eq_cons_iff.mp hrest
  refine ⟨pre ++ between, post, by simp, fun m hm hrole => ?_⟩
  have hmem : m ∈ post.filter fun m => role m.1 = .user :=
    List.mem_filter.mpr ⟨hm, by simpa using hrole⟩
  rw [hpost] at hmem
  exact List.not_mem_nil hmem

/-- The user turn in front of the window is older than it. -/
theorem lastUser_before {low : Nat} {user : α × Nat} {pre post : List (α × Nat)}
    (hbody : body = pre ++ user :: post)
    (hout : (body.drop low).any (fun m => m.2 = user.2) = false) : pre.length < low := by
  by_contra hle
  have hmem : user ∈ body.drop low := by
    rw [hbody, List.drop_append_of_le_length (by omega)]
    exact List.mem_append_right _ List.mem_cons_self
  have hin : (body.drop low).any (fun m => m.2 = user.2) = true :=
    List.any_eq_true.mpr ⟨user, hmem, by simp⟩
  rw [hout] at hin
  cases hin

theorem drop_after {low : Nat} {user : α × Nat} {pre post : List (α × Nat)}
    (hlow : pre.length < low) :
    (pre ++ user :: post).drop low = post.drop (low - pre.length - 1) := by
  obtain ⟨k, rfl⟩ : ∃ k, low = pre.length + (k + 1) := ⟨low - pre.length - 1, by omega⟩
  rw [List.drop_length_add_append, List.drop_succ_cons]
  congr 1
  omega

theorem Answered.window_sublist (h : Answered role body) (keepLast : Nat) :
    (historyWindow role body keepLast).Sublist body := by
  rw [h.window]
  split
  · rename_i user huser
    split
    · exact List.drop_sublist _ _
    · rename_i hout
      obtain ⟨pre, post, hbody, -⟩ := split_at_lastUser huser
      have hlow := lastUser_before hbody (Bool.eq_false_iff.mpr hout)
      rw [hbody] at hlow ⊢
      rw [drop_after hlow]
      exact ((List.drop_sublist _ _).cons_cons user).trans (List.sublist_append_right _ _)
  · exact List.drop_sublist _ _

/-- Of messages at increasing places, those of a part are the part. -/
theorem filter_any_eq {window : List (α × Nat)} (hsub : window.Sublist body)
    (hsorted : body.Pairwise fun a b => a.2 < b.2) :
    body.filter (fun m => window.any fun w => w.2 = m.2) = window := by
  induction hsub with
  | slnil => rfl
  | @cons window body m hsub ih =>
      obtain ⟨hfirst, hrest⟩ := List.pairwise_cons.mp hsorted
      rw [List.filter_cons_of_neg, ih hrest]
      simp only [List.any_eq_true, decide_eq_true_eq, not_exists, not_and]
      intro w hw heq
      have hlt := hfirst w (hsub.subset hw)
      omega
  | @cons_cons window body m hsub ih =>
      obtain ⟨hfirst, hrest⟩ := List.pairwise_cons.mp hsorted
      rw [List.filter_cons_of_pos (by simp)]
      congr 1
      refine (List.filter_congr fun x hx => ?_).trans (ih hrest)
      have hlt := hfirst x hx
      have hne : ¬ m.2 = x.2 := by omega
      simp [hne]

/-! ### The window again -/

theorem toolAt_congr {body' : List (α × Nat)} (h : body.map Prod.fst = body'.map Prod.fst)
    (j : Nat) : toolAt role body j = toolAt role body' j := by
  have hget : ∀ b : List (α × Nat), toolAt role b j =
      ((b.map Prod.fst)[j]?).any fun m => role m = .tool := by
    intro b
    rw [List.getElem?_map, toolAt]
    cases b[j]? <;> rfl
  rw [hget, hget, h]

theorem toolAt_drop (low j : Nat) : toolAt role (body.drop low) j = toolAt role body (low + j) := by
  rw [toolAt, toolAt, List.getElem?_drop]

/-- A body that is its own window: the last messages, with results of one
call before them. -/
theorem historyWindow_self {keepLast : Nat} (hstart : toolAt role body 0 = false)
    (htools : ∀ j, 0 < j → j ≤ body.length - keepLast → toolAt role body j = true) :
    historyWindow role body keepLast = body := by
  have hwalk : walkBack role body (body.length - keepLast) = 0 :=
    walkBack_eq (Nat.zero_le _) (.inl rfl) htools
  unfold historyWindow
  rw [hwalk, dropWhile_eq_self hstart, List.drop_zero]
  split
  · rename_i user huser
    have hmem : user ∈ body := (List.mem_filter.mp (List.mem_of_getLast? huser)).1
    rw [if_pos (List.any_eq_true.mpr ⟨user, hmem, by simp⟩)]
  · rfl

/-- The same behind the latest user turn. -/
theorem historyWindow_behind_user {keepLast : Nat} {user : α × Nat}
    (huser : role user.1 = .user) (hothers : ∀ m ∈ body, role m.1 ≠ .user)
    (hsorted : (user :: body).Pairwise fun a b => a.2 < b.2)
    (hlong : 1 ≤ (user :: body).length - keepLast) (hstart : toolAt role body 0 = false)
    (htools : ∀ j, 0 < j → j + 1 ≤ (user :: body).length - keepLast → toolAt role body j = true) :
    historyWindow role (user :: body) keepLast = user :: body := by
  have hwalk : walkBack role (user :: body) ((user :: body).length - keepLast) = 1 := by
    refine walkBack_eq hlong (.inr hstart) fun j hj hle => ?_
    obtain ⟨i, rfl⟩ : ∃ i, j = i + 1 := ⟨j - 1, by omega⟩
    exact htools i (by omega) hle
  have hlast : ((user :: body).filter fun m => role m.1 = .user).getLast? = some user := by
    have hnone : body.filter (fun m => role m.1 = .user) = [] :=
      List.filter_eq_nil_iff.mpr fun m hm => by simpa using hothers m hm
    rw [List.filter_cons_of_pos (by simpa using huser), hnone, List.getLast?_singleton]
  unfold historyWindow
  have hstart' : toolAt role (user :: body) 1 = false := hstart
  rw [hwalk, dropWhile_eq_self hstart', hlast]
  dsimp only
  rw [List.drop_one, List.tail_cons, if_neg]
  simp only [List.any_eq_true, decide_eq_true_eq, not_exists, not_and]
  intro m hm heq
  have hlt := (List.pairwise_cons.mp hsorted).1 m hm
  omega

end Window

/-! ### The body of a conversation -/

section Body

variable {α : Type} {role : α → MessageRole} {items : List α}

theorem mem_historyBody {m : α × Nat} :
    m ∈ historyBody role items ↔ items[m.2]? = some m.1 ∧ role m.1 ≠ .system := by
  rw [historyBody, List.mem_filter, List.mem_zipIdx_iff_getElem?]
  simp

theorem historyBody_sorted (role : α → MessageRole) (items : List α) :
    (historyBody role items).Pairwise fun a b => a.2 < b.2 := by
  refine List.Pairwise.sublist List.filter_sublist ?_
  rw [← List.pairwise_map (R := fun i j : Nat => i < j), List.zipIdx_map_snd]
  exact List.pairwise_lt_range'

/-- Places in the body are in the order of the places in the conversation. -/
theorem historyBody_lt_iff {j k : Nat} {x y : α × Nat} (hx : (historyBody role items)[j]? = some x)
    (hy : (historyBody role items)[k]? = some y) : j < k ↔ x.2 < y.2 := by
  have hsorted := List.pairwise_iff_getElem.mp (historyBody_sorted role items)
  obtain ⟨hj, rfl⟩ := List.getElem?_eq_some_iff.mp hx
  obtain ⟨hk, rfl⟩ := List.getElem?_eq_some_iff.mp hy
  constructor
  · exact fun hlt => hsorted j k hj hk hlt
  · intro hlt
    rcases Nat.lt_trichotomy j k with h | rfl | h
    · exact h
    · omega
    · have hback := hsorted k j hk hj h
      omega

/-- What comes after a message in the body are the later messages besides
the system's. -/
theorem historyBody_split {i : Nat} {m : α} (hm : items[i]? = some m) (hrole : role m ≠ .system) :
    ∃ pre post, historyBody role items = pre ++ (m, i) :: post ∧
      post.map Prod.fst = (items.drop (i + 1)).filter fun m => role m ≠ .system := by
  obtain ⟨hi, rfl⟩ := List.getElem?_eq_some_iff.mp hm
  have hitems : items = items.take i ++ items[i] :: items.drop (i + 1) := by
    rw [List.getElem_cons_drop, List.take_append_drop]
  have hzip : items.zipIdx = (items.take i).zipIdx ++ (items[i], i) ::
      (items.drop (i + 1)).zipIdx (i + 1) := by
    conv => lhs; rw [hitems]
    rw [List.zipIdx_append, List.zipIdx_cons, List.length_take, Nat.min_eq_left (by omega),
      Nat.zero_add]
  refine ⟨((items.take i).zipIdx).filter fun m => role m.1 ≠ .system,
    ((items.drop (i + 1)).zipIdx (i + 1)).filter fun m => role m.1 ≠ .system, ?_, ?_⟩
  · rw [historyBody, hzip, List.filter_append, List.filter_cons_of_pos (by simpa using hrole)]
  · have hmap := List.filter_map (p := fun m => decide (role m ≠ .system)) (f := Prod.fst)
      (l := (items.drop (i + 1)).zipIdx (i + 1))
    rw [List.zipIdx_map_fst] at hmap
    rw [hmap]
    rfl

/-- Results that follow their calls in the conversation do so in its body. -/
theorem answered_historyBody
    (hcalls : ∀ t m, items[t]? = some m → role m = .tool → ∃ a, CallsTool role items a t) :
    Answered role (historyBody role items) := by
  intro j hj
  cases hget : (historyBody role items)[j]? with
  | none => simp [toolAt, hget] at hj
  | some x =>
      have htool : role x.1 = .tool := by simpa [toolAt, hget] using hj
      obtain ⟨hx, -⟩ := mem_historyBody.mp (List.mem_of_getElem? hget)
      obtain ⟨a, ha⟩ := hcalls x.2 x.1 hx htool
      obtain ⟨call, hcall, hrole⟩ := Option.map_eq_some_iff.mp ha.assistant
      have hmem : (call, a) ∈ historyBody role items :=
        mem_historyBody.mpr ⟨hcall, by simp [hrole]⟩
      obtain ⟨i, hi⟩ := List.mem_iff_getElem?.mp hmem
      refine ⟨i, (historyBody_lt_iff hi hget).mpr ha.before, by simp [toolAt, hi, hrole], ?_⟩
      intro k hik hkj
      have hk : k < (historyBody role items).length := by
        have hlen := (List.getElem?_eq_some_iff.mp hget).1
        omega
      have hy : (historyBody role items)[k]? = some (historyBody role items)[k] :=
        List.getElem?_eq_getElem hk
      obtain ⟨hitem, hsystem⟩ := mem_historyBody.mp (List.mem_of_getElem? hy)
      rcases ha.between _ ((historyBody_lt_iff hi hy).mp hik) ((historyBody_lt_iff hy hget).mp hkj)
        _ hitem with h | h
      · simp [toolAt, hy, h]
      · exact absurd h hsystem

end Body

/-! ### What a split keeps -/

section Kept

variable {α : Type} {role : α → MessageRole} {items : List α} {keepLast : Nat}

/-- The places that stay. -/
def keptAt (role : α → MessageRole) (items : List α) (window : List (α × Nat)) (i : Nat) : Bool :=
  window.any (fun w => w.2 = i) || (items[i]?).any fun m => role m = .system

theorem keepsMessage_eq {window : List (α × Nat)} {m : α × Nat} (hm : items[m.2]? = some m.1) :
    keepsMessage role window m = keptAt role items window m.2 := by
  rw [keepsMessage, keptAt, hm]
  rfl

theorem kept_eq_pick (window : List (α × Nat)) :
    (items.zipIdx.filter (keepsMessage role window)).map Prod.fst =
      pick (keptAt role items window) items := by
  rw [pick]
  congr 1
  exact List.filter_congr fun m hm => keepsMessage_eq (List.mem_zipIdx_iff_getElem?.mp hm)

theorem dropped_eq_pick (window : List (α × Nat)) :
    ((historyBody role items).filter fun m => !keepsMessage role window m).map Prod.fst =
      pick (fun i => !keptAt role items window i) items := by
  rw [pick, historyBody, List.filter_filter]
  congr 1
  refine List.filter_congr fun m hm => ?_
  rw [← keepsMessage_eq (List.mem_zipIdx_iff_getElem?.mp hm), keepsMessage]
  by_cases hrole : role m.1 = .system <;> simp [hrole]

/-- What is kept besides the system's messages is the window. -/
theorem historyBody_kept {window : List (α × Nat)} (hsub : window.Sublist (historyBody role items)) :
    (historyBody role (pick (keptAt role items window) items)).map Prod.fst =
      window.map Prod.fst := by
  have hbody : ∀ l : List α, (historyBody role l).map Prod.fst =
      l.filter fun m => role m ≠ .system := by
    intro l
    conv => rhs; rw [← List.zipIdx_map_fst 0 l, List.filter_map]
    rfl
  rw [hbody, ← kept_eq_pick, List.filter_map, List.filter_filter]
  conv => rhs; rw [← filter_any_eq hsub (historyBody_sorted role items), historyBody,
    List.filter_filter]
  congr 1
  refine List.filter_congr fun m _ => ?_
  rw [keepsMessage]
  by_cases hrole : role m.1 = .system <;> simp [hrole]

theorem mem_keptAt {window : List (α × Nat)} {m : α} {i : Nat} (h : (m, i) ∈ window) :
    keptAt role items window i = true := by
  rw [keptAt, List.any_eq_true.mpr ⟨(m, i), h, by simp⟩, Bool.true_or]

/-- The last messages are in the window. -/
theorem recent_mem_window (hanswered : Answered role (historyBody role items)) {i : Nat} {m : α}
    (hm : items[i]? = some m) (hrole : role m ≠ .system)
    (hlast : ((items.drop (i + 1)).filter fun m => role m ≠ .system).length < keepLast) :
    (m, i) ∈ historyWindow role (historyBody role items) keepLast := by
  obtain ⟨pre, post, hbody, hpost⟩ := historyBody_split hm hrole
  have hlength : post.length < keepLast := by
    rw [← hpost, List.length_map] at hlast
    exact hlast
  have hlow : walkBack role (historyBody role items)
      ((historyBody role items).length - keepLast) ≤ _ := walkBack_le _
  have htotal : (historyBody role items).length = pre.length + (post.length + 1) := by
    rw [hbody, List.length_append, List.length_cons]
  refine hanswered.mem_window_of_drop ?_
  generalize walkBack role (historyBody role items) _ = low at hlow
  rw [hbody, List.drop_append_of_le_length (by omega)]
  exact List.mem_append_right _ List.mem_cons_self

/-- So is the latest user turn. -/
theorem lastUser_kept {i : Nat} {m : α} (hm : items[i]? = some m) (hrole : role m = .user)
    (hlast : ∀ j m', i < j → items[j]? = some m' → role m' ≠ .user) :
    keptAt role items (historyWindow role (historyBody role items) keepLast) i = true := by
  have hsystem : role m ≠ .system := fun h => absurd (hrole.symm.trans h) (by decide)
  obtain ⟨pre, post, hbody, hpost⟩ := historyBody_split hm hsystem
  have hothers : post.filter (fun m => role m.1 = .user) = [] := by
    refine List.filter_eq_nil_iff.mpr fun x hx => ?_
    have hmem : x.1 ∈ items.drop (i + 1) := by
      have hin : x.1 ∈ post.map Prod.fst := List.mem_map_of_mem hx
      rw [hpost] at hin
      exact (List.mem_filter.mp hin).1
    obtain ⟨k, hk⟩ := List.mem_iff_getElem?.mp hmem
    rw [List.getElem?_drop] at hk
    simpa using hlast _ _ (by omega) hk
  have huser : ((historyBody role items).filter fun m => role m.1 = .user).getLast? =
      some (m, i) := by
    rw [hbody, List.filter_append, List.filter_cons_of_pos (by simpa using hrole), hothers,
      List.getLast?_concat]
  rw [keptAt, lastUser_mem_window huser, Bool.true_or]

/-- A result that is kept has its call kept: the window does not start
between them. -/
theorem call_kept (hanswered : Answered role (historyBody role items)) {a t : Nat} {m : α}
    (hm : items[t]? = some m) (htool : role m = .tool)
    (hkept : keptAt role items (historyWindow role (historyBody role items) keepLast) t = true)
    (hcalls : CallsTool role items a t) :
    keptAt role items (historyWindow role (historyBody role items) keepLast) a = true := by
  have hmem : (m, t) ∈ historyWindow role (historyBody role items) keepLast := by
    rw [keptAt, hm] at hkept
    obtain ⟨⟨x, i⟩, hx, hi⟩ : ∃ w ∈ historyWindow role (historyBody role items) keepLast,
        w.2 = t := by simpa [htool] using hkept
    obtain rfl : i = t := hi
    have hitem := (mem_historyBody.mp ((hanswered.window_sublist keepLast).subset hx)).1
    obtain rfl : m = x := Option.some.inj (hm.symm.trans hitem)
    exact hx
  have hdrop : (m, t) ∈ (historyBody role items).drop
      (walkBack role (historyBody role items) ((historyBody role items).length - keepLast)) := by
    rcases hanswered.mem_window hmem with h | h
    · exact h
    · exact absurd (htool.symm.trans h) (by decide)
  have hstart := hanswered.start ((historyBody role items).length - keepLast)
  generalize hlow : walkBack role (historyBody role items) _ = low at hdrop hstart
  obtain ⟨call, hcall, hassistant⟩ := Option.map_eq_some_iff.mp hcalls.assistant
  have hbody : (call, a) ∈ historyBody role items :=
    mem_historyBody.mpr ⟨hcall, by simp [hassistant]⟩
  obtain ⟨ja, hja⟩ := List.mem_iff_getElem?.mp hbody
  obtain ⟨k, hk⟩ := List.mem_iff_getElem?.mp hdrop
  rw [List.getElem?_drop] at hk
  have hbefore := (historyBody_lt_iff hja hk).mpr hcalls.before
  have hin : low ≤ ja := by
    by_contra hout
    -- the window would start with a result of this call
    have hlt : low < (historyBody role items).length := by
      have hlen := (List.getElem?_eq_some_iff.mp hk).1
      omega
    have hget := List.getElem?_eq_getElem hlt
    have hresult : toolAt role (historyBody role items) low = true := by
      rcases Nat.eq_zero_or_pos k with rfl | hpos
      · simp only [Nat.add_zero] at hk
        simp [toolAt, hk, htool]
      · obtain ⟨hitem, hsystem⟩ := mem_historyBody.mp (List.mem_of_getElem? hget)
        have hafter := (historyBody_lt_iff hja hget).mp (by omega)
        have hbefore' := (historyBody_lt_iff hget hk).mp (by omega)
        rcases hcalls.between _ hafter hbefore' _ hitem with h | h
        · simp [toolAt, hget, h]
        · exact absurd h hsystem
    rw [hstart] at hresult
    cases hresult
  refine mem_keptAt (hanswered.mem_window_of_drop (m := (call, a)) ?_)
  rw [hlow]
  refine List.mem_iff_getElem?.mpr ⟨ja - low, ?_⟩
  rw [List.getElem?_drop, Nat.add_sub_cancel' hin]
  exact hja

/-- What is kept is its own window. -/
theorem window_kept (hanswered : Answered role (historyBody role items))
    (hlong : keepLast < (historyBody role (pick (keptAt role items
      (historyWindow role (historyBody role items) keepLast)) items)).length) :
    historyWindow role (historyBody role (pick (keptAt role items
        (historyWindow role (historyBody role items) keepLast)) items)) keepLast =
      historyBody role (pick (keptAt role items
        (historyWindow role (historyBody role items) keepLast)) items) := by
  have hmap := historyBody_kept (hanswered.window_sublist keepLast)
  have hsorted := historyBody_sorted role (pick (keptAt role items
    (historyWindow role (historyBody role items) keepLast)) items)
  generalize historyBody role (pick (keptAt role items _) items) = body' at *
  have hstart := hanswered.start ((historyBody role items).length - keepLast)
  have htools : ∀ j, walkBack role (historyBody role items)
      ((historyBody role items).length - keepLast) < j →
      j ≤ (historyBody role items).length - keepLast →
      toolAt role (historyBody role items) j = true := fun j hlow hj => toolAt_of_walkBack hlow hj
  have hle : walkBack role (historyBody role items)
      ((historyBody role items).length - keepLast) ≤ _ := walkBack_le _
  rw [hanswered.window] at hmap
  generalize walkBack role (historyBody role items) _ = low at hmap hstart htools hle
  have hself : body'.map Prod.fst = ((historyBody role items).drop low).map Prod.fst →
      historyWindow role body' keepLast = body' := by
    intro hmap
    have hlength : body'.length = (historyBody role items).length - low := by
      have h := congrArg List.length hmap
      simpa using h
    refine historyWindow_self ?_ fun j hpos hj => ?_
    · rw [toolAt_congr hmap, toolAt_drop]
      exact hstart
    · rw [toolAt_congr hmap, toolAt_drop]
      exact htools _ (by omega) (by omega)
  split at hmap
  · rename_i user huser
    split at hmap
    · exact hself hmap
    · -- the latest user turn stands in front of the end of the body
      rename_i hout
      obtain ⟨pre, post, hbody, hothers⟩ := split_at_lastUser huser
      have hbefore := lastUser_before hbody (Bool.eq_false_iff.mpr hout)
      obtain ⟨user', rest, rfl⟩ : ∃ user' rest, body' = user' :: rest := by
        cases body' with
        | nil => cases hmap
        | cons user' rest => exact ⟨user', rest, rfl⟩
      rw [List.map_cons, List.map_cons] at hmap
      obtain ⟨hfst, hrest⟩ := List.cons.inj hmap
      have hlength : rest.length = (historyBody role items).length - low := by
        have h := congrArg List.length hrest
        simpa using h
      have hrole : role user'.1 = .user := by
        rw [hfst]
        simpa using (List.mem_filter.mp (List.mem_of_getLast? huser)).2
      have hnoUser : ∀ m ∈ rest, role m.1 ≠ .user := by
        intro m hm
        have hin : m.1 ∈ ((historyBody role items).drop low).map Prod.fst :=
          hrest ▸ List.mem_map_of_mem hm
        obtain ⟨m', hm', heq⟩ := List.mem_map.mp hin
        rw [hbody, drop_after hbefore] at hm'
        exact heq ▸ hothers m' (List.mem_of_mem_drop hm')
      refine historyWindow_behind_user hrole hnoUser hsorted (by omega) ?_ fun j hpos hj => ?_
      · rw [toolAt_congr hrest, toolAt_drop]
        exact hstart
      · rw [List.length_cons] at hj
        rw [toolAt_congr hrest, toolAt_drop]
        exact htools _ (by omega) (by omega)
  · exact hself hmap

/-- A conversation that is its own window is kept whole. -/
theorem splitHistory_self (hkeep : 1 ≤ keepLast)
    (hself : keepLast < (historyBody role items).length →
      historyWindow role (historyBody role items) keepLast = historyBody role items) :
    splitHistory role items keepLast = .ok ⟨items, []⟩ := by
  unfold splitHistory
  rw [if_neg (by omega)]
  dsimp only
  split
  · rfl
  · rename_i hlong
    rw [hself (by omega)]
    have hall : ∀ m ∈ items.zipIdx, keepsMessage role (historyBody role items) m = true := by
      intro m hm
      by_cases hrole : role m.1 = .system
      · simp [keepsMessage, hrole]
      · have hmem : m ∈ historyBody role items :=
          mem_historyBody.mpr ⟨List.mem_zipIdx_iff_getElem?.mp hm, hrole⟩
        rw [keepsMessage, List.any_eq_true.mpr ⟨m, hmem, by simp⟩, Bool.true_or]
    have hnone : (historyBody role items).filter
        (fun m => !keepsMessage role (historyBody role items) m) = [] := by
      refine List.filter_eq_nil_iff.mpr fun m hm => ?_
      simp [hall m (List.mem_of_mem_filter hm)]
    rw [List.filter_eq_self.mpr hall, hnone, List.zipIdx_map_fst, List.map_nil]

end Kept

theorem pick_all {α : Type} (items : List α) : pick (fun _ => true) items = items := by
  rw [pick, List.filter_eq_self.mpr fun _ _ => rfl, List.zipIdx_map_fst]

theorem pick_none {α : Type} (items : List α) : pick (fun _ => false) items = [] := by
  rw [pick, List.filter_eq_nil_iff.mpr fun _ _ => by simp, List.map_nil]

/-- A split keeps what a model needs to see, and splitting again drops
nothing. -/
theorem split_history_safe {α : Type} (role : α → MessageRole) (items : List α) (keepLast : Nat)
    (hkeep : 1 ≤ keepLast)
    (hcalls : ∀ t m, items[t]? = some m → role m = .tool → ∃ a, CallsTool role items a t) :
    ∃ split keep, splitHistory role items keepLast = .ok split ∧
      SafeSplit role items keepLast split keep := by
  have hanswered := answered_historyBody hcalls
  by_cases hshort : (historyBody role items).length ≤ keepLast
  · have hall : splitHistory role items keepLast = .ok ⟨items, []⟩ :=
      splitHistory_self hkeep fun h => by omega
    exact ⟨⟨items, []⟩, fun _ => true, hall, {
      kept := (pick_all items).symm
      dropped := (pick_none items).symm
      system := fun _ _ _ _ => rfl
      lastUser := fun _ _ _ _ _ => rfl
      recent := fun _ _ _ _ _ => rfl
      calls := fun _ _ _ _ _ _ _ => rfl
      again := hall }⟩
  · refine ⟨⟨pick (keptAt role items (historyWindow role (historyBody role items) keepLast)) items,
      pick (fun i => !keptAt role items (historyWindow role (historyBody role items) keepLast) i)
        items⟩, keptAt role items (historyWindow role (historyBody role items) keepLast), ?_, ?_⟩
    · unfold splitHistory
      rw [if_neg (by omega)]
      dsimp only
      rw [if_neg hshort, kept_eq_pick, dropped_eq_pick]
    · exact {
        kept := rfl
        dropped := rfl
        system := fun i m hm hrole => by simp [keptAt, hm, hrole]
        lastUser := fun i m hm hrole hlast => lastUser_kept hm hrole hlast
        recent := fun i m hm hrole hlast => mem_keptAt (recent_mem_window hanswered hm hrole hlast)
        calls := fun a t m hm htool hkept hcall => call_kept hanswered hm htool hkept hcall
        again := splitHistory_self hkeep fun hlong => window_kept hanswered hlong }

/-- A tool loop that is longer than what is kept: the question stays in front. -/
theorem split_history_safe_toolLoop :
    let items : List Message := [⟨true, some "system", none⟩, ⟨true, some "user", none⟩,
      ⟨false, none, some "ai"⟩, ⟨false, none, some "tool"⟩, ⟨true, some "assistant", none⟩,
      ⟨true, some "function", none⟩, ⟨false, none, some "tool"⟩]
    ∃ split keep, splitHistory messageRole items 1 = .ok split ∧
      SafeSplit messageRole items 1 split keep := by
  intro items
  refine split_history_safe messageRole items 1 (by decide) fun t m hm htool => ?_
  have hroles : items.map messageRole =
      [.system, .user, .assistant, .tool, .assistant, .tool, .tool] := by decide
  have hrole : (items.map messageRole)[t]? = some .tool := by
    rw [List.getElem?_map, hm, Option.map_some, htool]
  have hcalls : ∀ a, a < t → (items.map messageRole)[a]? = some .assistant →
      (∀ i, a < i → i < t → (items.map messageRole)[i]? = some .tool) →
      CallsTool messageRole items a t := by
    intro a hlt hassistant hbetween
    refine ⟨hlt, by rw [← List.getElem?_map]; exact hassistant, fun i hai hit x hx => ?_⟩
    have hget := hbetween i hai hit
    rw [List.getElem?_map, hx] at hget
    exact .inl (Option.some.inj hget)
  rw [hroles] at hrole hcalls
  have hlt : t < 7 := (List.getElem?_eq_some_iff.mp hrole).1
  interval_cases t
  all_goals first
    | exact absurd hrole (by decide)
    | skip
  · exact ⟨2, hcalls 2 (by decide) rfl fun i _ _ => by omega⟩
  · exact ⟨4, hcalls 4 (by decide) rfl fun i _ _ => by omega⟩
  · refine ⟨4, hcalls 4 (by decide) rfl fun i _ _ => ?_⟩
    obtain rfl : i = 5 := by omega
    rfl

end MarkSdk
