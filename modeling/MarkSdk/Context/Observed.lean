import Mathlib.Data.List.DropRight
import Mathlib.Data.List.Nodup

/-!
Feeding what is new in a list of messages that is sent again and again.

The watch remembers how long the last list was, and the fingerprints of its
last few messages. In the next list it looks for the end of what it has seen.
-/

namespace MarkSdk

def backfillLimit : Nat := 20

/-- `_TAIL` -/
def tailLength : Nat := 8

section Fingerprints

variable {F : Type} [DecidableEq F]

/-- `tail[-k:]`, which is the whole of it for `k = 0`. -/
def sliceLast (k : Nat) (tail : List F) : List F :=
  if k = 0 then tail else tail.rtake k

/-- The last few messages seen stand right before `stop`. -/
def MatchesAt (prints tail : List F) (stop : Nat) : Prop :=
  let k := min 3 (min tail.length stop)
  (prints.take stop).drop (stop - k) = sliceLast k tail

instance (prints tail : List F) (stop : Nat) : Decidable (MatchesAt prints tail stop) :=
  inferInstanceAs (Decidable (_ = _))

/-- `for end in range(len(prints), 0, -1)` -/
def matchedEnd (prints tail : List F) : Nat → Option Nat
  | 0 => none
  | stop + 1 =>
      if MatchesAt prints tail (stop + 1) then some (stop + 1) else matchedEnd prints tail stop

/-- `_unseen_start`, with `none` for -1. -/
def unseenStart (prints : List F) (count : Nat) (tail : List F) : Option Nat :=
  if tail = [] then some 0
  else
    let k := min tail.length count
    -- the list only grew, or stayed the same
    if count ≤ prints.length ∧ (prints.take count).drop (count - k) = sliceLast k tail then
      some count
    else matchedEnd prints tail prints.length

end Fingerprints

/-- What the watch remembers of the last list. -/
structure MessageCursor (F : Type) where
  msgCount : Nat := 0
  msgTail : List F := []

section Watch

variable {M F : Type} [DecidableEq F] (fingerprint : M → F) (role : M → Option String)

/-- `for index in range(len(messages) - 1, -1, -1)` -/
def latestUserTurnFrom (messages : List M) : Nat → Option Nat
  | 0 => none
  | index + 1 =>
      if (messages[index]?.bind role) = some "user" then some index
      else latestUserTurnFrom messages index

def latestUserTurn (messages : List M) : Nat :=
  (latestUserTurnFrom role messages messages.length).getD (messages.length - 1)

/-- The messages that are fed, and what is remembered. -/
def observeMessages (cursor : MessageCursor F) (messages : List M) :
    MessageCursor F × List M :=
  let prints := messages.map fingerprint
  let start := (unseenStart prints cursor.msgCount cursor.msgTail).getD
    (latestUserTurn role messages)
  (⟨messages.length, prints.rtake tailLength⟩, (messages.drop start).rtake backfillLimit)

/-- The messages that each of several calls feeds. -/
def observeAll : MessageCursor F → List (List M) → List (List M)
  | _, [] => []
  | cursor, messages :: calls =>
      let observed := observeMessages fingerprint role cursor messages
      observed.2 :: observeAll observed.1 calls

end Watch

/-! ### Conversations -/

/-- One list of messages: a system message that may be kept in front, what is
left of the list before, and what was appended. -/
structure Turn (M : Type) where
  front : List M
  retained : List M
  fresh : List M

namespace Turn

variable {M F : Type} (fingerprint : M → F) (role : M → Option String)

def before (t : Turn M) : List M := t.front ++ t.retained

def messages (t : Turn M) : List M := t.before ++ t.fresh

/-- Older messages are trimmed from the front, and the last one seen is not. At
first, all is new. -/
def Continues (previous : List M) (t : Turn M) : Prop :=
  (previous = [] ∧ t.before = []) ∨
    t.retained ≠ [] ∧ t.retained <:+ previous ∧
      (t.front = [] ∨ ∃ system rest, previous = system :: rest ∧
        role system = some "system" ∧ t.front = [system])

/-- The new list is not trimmed, or keeps no system message in front of the rest,
or three more messages; or the latest user turn makes up for it. -/
def Placed (previous : List M) (t : Turn M) : Prop :=
  t.front = [] ∨ 3 ≤ t.retained.length ∨ t.before = previous ∨
    latestUserTurn role t.messages = t.before.length ∨
      backfillLimit ≤ t.fresh.length ∧
        latestUserTurn role t.messages + backfillLimit ≤ t.messages.length

end Turn

section Conversation

variable {M F : Type} (fingerprint : M → F) (role : M → Option String)

/-- Each list continues the one before, and no two of its messages are alike. -/
def Conversation : List M → List (Turn M) → Prop
  | _, [] => True
  | previous, t :: turns =>
      t.Continues role previous ∧ (t.messages.map fingerprint).Nodup ∧
        Conversation t.messages turns

/-- Every turn of a conversation is placed. -/
def EveryPlaced : List M → List (Turn M) → Prop
  | _, [] => True
  | previous, t :: turns => t.Placed role previous ∧ EveryPlaced t.messages turns

end Conversation

/-! ### The last elements -/

section RTake

variable {α β : Type} {l s : List α} {n m : Nat}

theorem length_rtake (l : List α) (n : Nat) : (l.rtake n).length = min n l.length := by
  rw [List.rtake, List.length_drop]
  omega

theorem rtake_suffix (l : List α) (n : Nat) : l.rtake n <:+ l := List.drop_suffix _ _

theorem rtake_of_length_le (h : l.length ≤ n) : l.rtake n = l := by
  rw [List.rtake, Nat.sub_eq_zero_of_le h, List.drop_zero]

theorem rtake_append (h : n ≤ s.length) : (l ++ s).rtake n = s.rtake n := by
  have hsplit : (l ++ s).length - n = l.length + (s.length - n) := by
    rw [List.length_append]
    omega
  rw [List.rtake, hsplit, List.drop_length_add_append, List.rtake]

theorem rtake_of_suffix (hs : s <:+ l) (h : n ≤ s.length) : l.rtake n = s.rtake n := by
  obtain ⟨front, rfl⟩ := hs
  exact rtake_append h

theorem rtake_rtake (h : n ≤ m) : (l.rtake m).rtake n = l.rtake n := by
  by_cases hlong : m ≤ l.length
  · refine (rtake_of_suffix (rtake_suffix l m) ?_).symm
    rw [length_rtake]
    omega
  · rw [rtake_of_length_le (by omega : l.length ≤ m)]

theorem map_rtake (f : α → β) : (l.rtake n).map f = (l.map f).rtake n := by
  rw [List.rtake, List.rtake, List.map_drop, List.length_map]

theorem getLast?_rtake (h : 0 < n) : (l.rtake n).getLast? = l.getLast? := by
  rw [List.rtake, List.getLast?_drop]
  split
  · have hnil : l = [] := List.length_eq_zero_iff.mp (by omega)
    rw [hnil, List.getLast?_nil]
  · rfl

end RTake

/-! ### The place of what was seen -/

section Place

variable {F : Type} [DecidableEq F] {prints tail before fresh previous : List F} {stop count : Nat}

omit [DecidableEq F] in
theorem sliceLast_of_pos {k : Nat} (h : 0 < k) : sliceLast k tail = tail.rtake k :=
  if_neg (by omega)

omit [DecidableEq F] in
theorem getLast?_slice {k : Nat} (hk : 0 < k) (hstop : 0 < stop) (hle : stop ≤ prints.length) :
    ((prints.take stop).drop (stop - k)).getLast? = prints[stop - 1]? := by
  have hin : stop - 1 < prints.length := by omega
  rw [List.getLast?_drop, List.length_take, if_neg (by omega), List.getLast?_take,
    if_neg (by omega), List.getElem?_eq_getElem hin, Option.some_or]

omit [DecidableEq F] in
/-- A match ends with the last message seen. -/
theorem MatchesAt.getLast? (h : MatchesAt prints tail stop) (htail : tail ≠ []) (hstop : 0 < stop)
    (hle : stop ≤ prints.length) : prints[stop - 1]? = tail.getLast? := by
  have hlength := List.length_pos_of_ne_nil htail
  have hk : 0 < min 3 (min tail.length stop) := by omega
  have hlast := congrArg List.getLast? h
  rw [getLast?_slice hk hstop hle, sliceLast_of_pos hk, getLast?_rtake hk] at hlast
  exact hlast

/-- What stands before the new messages ends as the last list did. -/
def Overlaps (before previous : List F) : Prop :=
  before.rtake (min 3 (min previous.length before.length)) =
    previous.rtake (min 3 (min previous.length before.length))

instance (before previous : List F) : Decidable (Overlaps before previous) :=
  inferInstanceAs (Decidable (_ = _))

omit [DecidableEq F] in
theorem matchesAt_iff_overlaps (hbefore : before ≠ []) (hprevious : previous ≠ []) :
    MatchesAt (before ++ fresh) (previous.rtake tailLength) before.length ↔
      Overlaps before previous := by
  have hb := List.length_pos_of_ne_nil hbefore
  have hp := List.length_pos_of_ne_nil hprevious
  have hk : min 3 (min (previous.rtake tailLength).length before.length) =
      min 3 (min previous.length before.length) := by
    rw [length_rtake, tailLength]
    omega
  have hpos : 0 < min 3 (min previous.length before.length) := by omega
  have hshort : min 3 (min previous.length before.length) ≤ tailLength := by
    rw [tailLength]
    omega
  rw [MatchesAt, hk, List.take_left, sliceLast_of_pos hpos, rtake_rtake hshort]
  exact Iff.rfl

theorem matchedEnd_eq {place : Nat} (hplace : 0 < place)
    (honly : ∀ stop, 0 < stop → stop ≤ prints.length → MatchesAt prints tail stop → stop = place)
    (n : Nat) (hn : n ≤ prints.length) :
    matchedEnd prints tail n =
      if place ≤ n ∧ MatchesAt prints tail place then some place else none := by
  induction n with
  | zero =>
      rw [matchedEnd, if_neg]
      rintro ⟨hle, -⟩
      omega
  | succ n ih =>
      rw [matchedEnd]
      by_cases hmatch : MatchesAt prints tail (n + 1)
      · have hhere := honly (n + 1) (by omega) hn hmatch
        subst hhere
        rw [if_pos hmatch, if_pos ⟨Nat.le_refl _, hmatch⟩]
      · rw [if_neg hmatch, ih (by omega)]
        have hsame : (place ≤ n ∧ MatchesAt prints tail place) ↔
            (place ≤ n + 1 ∧ MatchesAt prints tail place) := by
          constructor
          · rintro ⟨hle, h⟩
            exact ⟨by omega, h⟩
          · rintro ⟨hle, h⟩
            have hne : place ≠ n + 1 := by
              rintro rfl
              exact hmatch h
            exact ⟨by omega, h⟩
        simp only [hsame]

variable (previous) in
/-- In a list of distinct messages, the place is found if the messages before it
end as the last list did. -/
theorem unseenStart_eq (hnodup : (before ++ fresh).Nodup) (hbefore : before ≠ [])
    (hlast : before.getLast? = previous.getLast?) :
    unseenStart (before ++ fresh) previous.length (previous.rtake tailLength) =
      if Overlaps before previous then some before.length else none := by
  have hprevious : previous ≠ [] := by
    rintro rfl
    exact hbefore (List.getLast?_eq_none_iff.mp hlast)
  have hb := List.length_pos_of_ne_nil hbefore
  have hp := List.length_pos_of_ne_nil hprevious
  have htail : previous.rtake tailLength ≠ [] := by
    apply List.ne_nil_of_length_pos
    rw [length_rtake, tailLength]
    omega
  have hplace : ∀ stop, 0 < stop → (before ++ fresh)[stop - 1]? = previous.getLast? →
      stop = before.length := by
    intro stop hstop hget
    have hthere : (before ++ fresh)[before.length - 1]? = previous.getLast? := by
      rw [List.getElem?_append_left (by omega), ← hlast, List.getLast?_eq_getElem?]
    have hin : before.length - 1 < (before ++ fresh).length := by
      rw [List.length_append]
      omega
    have heq := (List.getElem?_inj hin hnodup).mp (hthere.trans hget.symm)
    omega
  have honly : ∀ stop, 0 < stop → stop ≤ (before ++ fresh).length →
      MatchesAt (before ++ fresh) (previous.rtake tailLength) stop → stop = before.length := by
    intro stop hstop hle h
    refine hplace stop hstop ((h.getLast? htail hstop hle).trans ?_)
    exact getLast?_rtake (by rw [tailLength]; omega)
  rw [unseenStart, if_neg htail]
  dsimp only
  have hk : min (previous.rtake tailLength).length previous.length =
      min tailLength previous.length := by
    rw [length_rtake]
    omega
  have hkpos : 0 < min tailLength previous.length := by
    rw [tailLength]
    omega
  rw [hk]
  split
  case isTrue hgrew =>
    obtain ⟨hle, heq⟩ := hgrew
    have hend := congrArg List.getLast? heq
    rw [getLast?_slice hkpos hp hle, sliceLast_of_pos hkpos, getLast?_rtake hkpos,
      getLast?_rtake (by rw [tailLength]; omega)] at hend
    have hcount := hplace previous.length hp hend
    have hsame : before.rtake (min tailLength previous.length) =
        previous.rtake (min tailLength previous.length) := by
      rw [hcount, List.take_left, ← hcount, sliceLast_of_pos hkpos,
        rtake_rtake (Nat.min_le_left _ _), hcount] at heq
      rw [List.rtake, hcount, heq]
    have hshort : min 3 (min previous.length before.length) ≤ min tailLength previous.length := by
      rw [tailLength]
      omega
    have hover : Overlaps before previous := by
      have hcut := congrArg (fun l => l.rtake (min 3 (min previous.length before.length))) hsame
      rwa [rtake_rtake hshort, rtake_rtake hshort] at hcut
    rw [if_pos hover, hcount]
  case isFalse =>
    rw [matchedEnd_eq hb honly _ (Nat.le_refl _)]
    simp only [matchesAt_iff_overlaps hbefore hprevious]
    simp

end Place

/-! ### One turn -/

section TurnStep

variable {M F : Type} {fingerprint : M → F} {role : M → Option String} {previous : List M}
  {t : Turn M}

theorem Turn.Continues.getLast? (h : t.Continues role previous) (hne : previous ≠ []) :
    t.before ≠ [] ∧ t.before.getLast? = previous.getLast? := by
  obtain ⟨hnil, -⟩ | ⟨hretained, ⟨trimmed, rfl⟩, -⟩ := h
  · exact absurd hnil hne
  · refine ⟨fun hnil => hretained (List.append_eq_nil_iff.mp hnil).2, ?_⟩
    rw [Turn.before, List.getLast?_append_of_ne_nil _ hretained,
      List.getLast?_append_of_ne_nil _ hretained]

/-- Short retained parts overlap unless the system message stands before them. -/
theorem Turn.Continues.overlaps_iff (h : t.Continues role previous) (hne : previous ≠ [])
    (hprevious : (previous.map fingerprint).Nodup) (ht : (t.messages.map fingerprint).Nodup) :
    Overlaps (t.before.map fingerprint) (previous.map fingerprint) ↔
      t.front = [] ∨ 3 ≤ t.retained.length ∨ t.before = previous := by
  obtain ⟨hnil, -⟩ | ⟨hretained, hsuffix, hfront⟩ := h
  · exact absurd hnil hne
  -- as long as only retained messages are compared, they are the same
  have hshort : ∀ k ≤ t.retained.length,
      (t.before.map fingerprint).rtake k = (previous.map fingerprint).rtake k := by
    intro k hk
    have hb : t.retained <:+ t.before := List.suffix_append _ _
    rw [← map_rtake, ← map_rtake, rtake_of_suffix hb hk, rtake_of_suffix hsuffix hk]
  constructor
  · intro hover
    obtain hfront | ⟨system, rest, rfl, -, hfront⟩ := hfront
    · exact .inl hfront
    · by_cases hlong : 3 ≤ t.retained.length
      · exact .inr (.inl hlong)
      · refine .inr (.inr ?_)
        have hnodup : (t.before.map fingerprint).Nodup := by
          rw [Turn.messages, List.map_append] at ht
          exact ht.of_append_left
        rw [Turn.before, hfront, List.map_append] at hnodup
        have hnew : fingerprint system ∉ t.retained.map fingerprint := by
          simpa using (List.nodup_cons.mp hnodup).1
        have hrest : t.retained <:+ rest := by
          refine (List.suffix_cons_iff.mp hsuffix).resolve_left fun heq => hnew ?_
          rw [heq]
          exact List.mem_cons_self
        have hle := hrest.length_le
        have hlength : (t.before.map fingerprint).length = t.retained.length + 1 := by
          rw [Turn.before, hfront, List.length_map, List.length_append]
          exact Nat.add_comm _ _
        rw [Overlaps, rtake_of_length_le (by
          rw [hlength, List.length_map, List.length_cons]; omega)] at hover
        have hin : t.before.map fingerprint <:+ (system :: rest).map fingerprint := by
          rw [hover]
          exact rtake_suffix _ _
        rw [List.map_cons] at hin hprevious
        have hwhole := (List.suffix_cons_iff.mp hin).resolve_right fun hlater => by
          refine (List.nodup_cons.mp hprevious).1 (hlater.subset ?_)
          rw [Turn.before, hfront]
          exact List.mem_cons_self
        have hsame := congrArg List.length hwhole
        rw [hlength, List.length_cons, List.length_map] at hsame
        have heq := hrest.eq_of_length (by omega)
        rw [Turn.before, hfront, heq]
        rfl
  · rintro (hfront | hlong | heq)
    · apply hshort
      rw [Turn.before, hfront, List.nil_append]
      simp only [List.length_map]
      omega
    · apply hshort
      omega
    · rw [heq, Overlaps]

theorem latestUserTurnFrom_lt {messages : List M} {n index : Nat}
    (h : latestUserTurnFrom role messages n = some index) : index < n := by
  induction n with
  | zero => cases h
  | succ n ih =>
      rw [latestUserTurnFrom] at h
      split at h
      · obtain rfl := Option.some.inj h
        omega
      · have hlt := ih h
        omega

theorem latestUserTurn_le (messages : List M) :
    latestUserTurn role messages ≤ messages.length := by
  rw [latestUserTurn]
  cases hturn : latestUserTurnFrom role messages messages.length with
  | none =>
      rw [Option.getD_none]
      omega
  | some index =>
      have hlt := latestUserTurnFrom_lt hturn
      rw [Option.getD_some]
      omega

/-- Two starts feed the same messages if they are one, or both too far back. -/
theorem rtake_drop_eq_iff {messages : List M} {i j n : Nat} (hi : i ≤ messages.length)
    (hj : j ≤ messages.length) :
    (messages.drop i).rtake n = (messages.drop j).rtake n ↔
      i = j ∨ j + n ≤ messages.length ∧ i + n ≤ messages.length := by
  constructor
  · intro h
    have hlength := congrArg List.length h
    simp only [length_rtake, List.length_drop] at hlength
    omega
  · rintro (rfl | ⟨hj', hi'⟩)
    · rfl
    · rw [← rtake_of_suffix (List.drop_suffix i messages) (by rw [List.length_drop]; omega),
        ← rtake_of_suffix (List.drop_suffix j messages) (by rw [List.length_drop]; omega)]

variable [DecidableEq F]

/-- What the watch remembers of a list. -/
def cursorAfter (fingerprint : M → F) (previous : List M) : MessageCursor F :=
  ⟨previous.length, (previous.map fingerprint).rtake tailLength⟩

/-- A turn feeds what is new exactly when it is placed. -/
theorem observeMessages_turn (h : t.Continues role previous)
    (hprevious : (previous.map fingerprint).Nodup) (ht : (t.messages.map fingerprint).Nodup) :
    (observeMessages fingerprint role (cursorAfter fingerprint previous) t.messages).2 =
        t.fresh.rtake backfillLimit ↔ t.Placed role previous := by
  by_cases hne : previous = []
  · subst hne
    obtain ⟨-, hbefore⟩ | ⟨hretained, hsuffix, -⟩ := h
    · refine iff_of_true ?_ (.inl (List.append_eq_nil_iff.mp hbefore).1)
      have hall : t.messages = t.fresh := by rw [Turn.messages, hbefore, List.nil_append]
      rw [hall]
      rfl
    · exact absurd (List.suffix_nil.mp hsuffix) hretained
  · obtain ⟨hbefore, hlast⟩ := h.getLast? hne
    have hover := h.overlaps_iff hne hprevious ht
    have hstart : unseenStart (t.messages.map fingerprint) (cursorAfter fingerprint previous).msgCount
        (cursorAfter fingerprint previous).msgTail =
          if Overlaps (t.before.map fingerprint) (previous.map fingerprint) then
            some t.before.length else none := by
      have hmap : t.messages.map fingerprint =
          t.before.map fingerprint ++ t.fresh.map fingerprint := by
        rw [Turn.messages, List.map_append]
      rw [hmap] at ht
      have heq := unseenStart_eq (previous.map fingerprint) ht
        (by simpa using hbefore) (by rw [List.getLast?_map, List.getLast?_map, hlast])
      rw [List.length_map, List.length_map] at heq
      rw [hmap]
      exact heq
    have hfresh : t.fresh = t.messages.drop t.before.length := by
      rw [Turn.messages, List.drop_left]
    have hlength : t.messages.length = t.before.length + t.fresh.length := by
      rw [Turn.messages, List.length_append]
    rw [observeMessages]
    dsimp only
    rw [hstart]
    by_cases hplaced : Overlaps (t.before.map fingerprint) (previous.map fingerprint)
    · rw [if_pos hplaced, Option.getD_some, ← hfresh]
      refine iff_of_true rfl ?_
      obtain hfront | hlong | heq := hover.mp hplaced
      · exact .inl hfront
      · exact .inr (.inl hlong)
      · exact .inr (.inr (.inl heq))
    · have hnot := mt hover.mpr hplaced
      rw [not_or, not_or] at hnot
      rw [if_neg hplaced, Option.getD_none]
      conv => lhs; rhs; rw [hfresh]
      rw [rtake_drop_eq_iff (latestUserTurn_le _) (by omega), Turn.Placed]
      simp only [hnot.1, hnot.2.1, hnot.2.2, false_or]
      have hroom : t.before.length + backfillLimit ≤ t.messages.length ↔
          backfillLimit ≤ t.fresh.length := by omega
      rw [hroom]

end TurnStep

/-! ### A whole conversation -/

section Run

variable {M F : Type} [DecidableEq F] {fingerprint : M → F} {role : M → Option String}

/-- The new messages of each list, the last of them if they are many. -/
def newMessages (turns : List (Turn M)) : List (List M) :=
  turns.map fun t => t.fresh.rtake backfillLimit

theorem newMessages_sublist (turns : List (Turn M)) :
    (newMessages turns).flatten.Sublist (turns.flatMap Turn.fresh) := by
  induction turns with
  | nil => exact List.Sublist.refl _
  | cons t turns ih =>
      show (t.fresh.rtake backfillLimit ++ (newMessages turns).flatten).Sublist
        (t.fresh ++ turns.flatMap Turn.fresh)
      exact (rtake_suffix _ _).sublist.append ih

theorem observeAll_eq_iff {previous : List M} {turns : List (Turn M)}
    (hprevious : (previous.map fingerprint).Nodup)
    (h : Conversation fingerprint role previous turns) :
    observeAll fingerprint role (cursorAfter fingerprint previous)
        (turns.map Turn.messages) = newMessages turns ↔
      EveryPlaced role previous turns := by
  induction turns generalizing previous with
  | nil => exact iff_of_true rfl trivial
  | cons t turns ih =>
      obtain ⟨hcontinues, ht, hrest⟩ := h
      rw [List.map_cons, observeAll, newMessages, List.map_cons, List.cons.injEq, EveryPlaced]
      exact and_congr (observeMessages_turn hcontinues hprevious ht) (ih ht hrest)

/-- In a conversation whose messages are all different, every call feeds just
what is new to it, and nothing is fed twice, if and only if every turn is
placed. -/
theorem observeMessages_exact_iff (fingerprint : M → F) (role : M → Option String)
    (turns : List (Turn M)) (h : Conversation fingerprint role [] turns)
    (hfresh : ((turns.flatMap Turn.fresh).map fingerprint).Nodup) :
    (observeAll fingerprint role {} (turns.map Turn.messages) = newMessages turns ∧
        ((observeAll fingerprint role {} (turns.map Turn.messages)).flatten.map
          fingerprint).Nodup) ↔
      EveryPlaced role [] turns := by
  have hstart : ({} : MessageCursor F) = cursorAfter fingerprint ([] : List M) := rfl
  have hnil : (([] : List M).map fingerprint).Nodup := List.nodup_nil
  rw [hstart, ← observeAll_eq_iff hnil h]
  constructor
  · exact fun h => h.1
  · intro heq
    refine ⟨heq, ?_⟩
    rw [heq]
    exact hfresh.sublist ((newMessages_sublist turns).map fingerprint)

/-- A trimmed list that keeps the system message and one more, a question that
is then answered. -/
def trimmedTurns : List (Turn (String × Nat)) :=
  [⟨[], [], [("system", 0), ("user", 1), ("assistant", 2), ("user", 3)]⟩,
    ⟨[("system", 0)], [("user", 3)], [("assistant", 4)]⟩]

/-- The question is fed again. -/
theorem observeMessages_trimmed :
    Conversation Prod.snd (fun m => some m.1) [] trimmedTurns ∧
      ((trimmedTurns.flatMap Turn.fresh).map Prod.snd).Nodup ∧
      observeAll Prod.snd (fun m => some m.1) {} (trimmedTurns.map Turn.messages) =
        [[("system", 0), ("user", 1), ("assistant", 2), ("user", 3)],
          [("user", 3), ("assistant", 4)]] := by
  refine ⟨⟨.inl ⟨rfl, rfl⟩, by decide, .inr ⟨by decide, ?_, .inr ?_⟩, by decide, trivial⟩,
    by decide, by decide⟩
  · exact ⟨[("system", 0), ("user", 1), ("assistant", 2)], rfl⟩
  · exact ⟨("system", 0), _, rfl, rfl, rfl⟩

/-- A list that only grows, and is then trimmed to its last three messages behind
the system's. -/
def slidingTurns : List (Turn (String × Nat)) :=
  [⟨[], [], [("system", 0), ("user", 1), ("assistant", 2), ("user", 3)]⟩,
    ⟨[], [("system", 0), ("user", 1), ("assistant", 2), ("user", 3)], [("assistant", 4)]⟩,
    ⟨[("system", 0)], [("assistant", 2), ("user", 3), ("assistant", 4)],
      [("assistant", 5)]⟩]

theorem observeMessages_exact_sliding :
    observeAll Prod.snd (fun m => some m.1) {} (slidingTurns.map Turn.messages) =
      newMessages slidingTurns := by
  refine ((observeMessages_exact_iff Prod.snd (fun m => some m.1) slidingTurns ?_
    (by decide)).mpr ?_).1
  · refine ⟨.inl ⟨rfl, rfl⟩, by decide, .inr ⟨by decide, ⟨[], rfl⟩, .inl rfl⟩, by decide,
      .inr ⟨by decide, ?_, .inr ⟨("system", 0), _, rfl, rfl, rfl⟩⟩, by decide, trivial⟩
    exact ⟨[("system", 0), ("user", 1)], rfl⟩
  · exact ⟨.inl rfl, .inl rfl, .inr (.inl (by decide)), trivial⟩

end Run

end MarkSdk
