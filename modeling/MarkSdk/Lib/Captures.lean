import MarkSdk.Lib.Regex

/-!
Patterns with named groups and tests of what stands beside a match, and the
matches that a scan of a text finds with them.
-/

namespace MarkSdk.Lib

inductive GroupPattern (α : Type) : Type
  | plain (r : Regex α)
  /-- `(?P<name>r)` -/
  | group (name : String) (r : Regex α)
  /-- `(?<!p)` -/
  | notBehind (p : α → Bool)
  /-- `(?!r)` -/
  | notAhead (r : Regex α)
  | seq (p q : GroupPattern α)
  | alt (p q : GroupPattern α)

/-- Where a way to match ends: the character before, what is left, and what the
groups took. -/
structure MatchEnd (α : Type) : Type where
  before : Option α
  rest : List α
  groups : List (String × List α)

/-- A match that was found. -/
structure Match (α : Type) : Type where
  start : Nat
  stop : Nat
  text : List α
  groups : List (String × List α)

/-- `m[name]`, nothing for a group that took no part. -/
def Match.group {α : Type} (m : Match α) (name : String) : Option (List α) := m.groups.lookup name

/-- The text of a match is what stands at its place. -/
def Match.At {α : Type} (m : Match α) (text : List α) : Prop :=
  m.start < m.stop ∧ m.stop ≤ text.length ∧ m.text = (text.drop m.start).take (m.stop - m.start)

namespace Regex

variable {α : Type} {word : α → Bool} {b n : Option α} {w : List α} {k : Nat}

/-- The most characters that a match can have, where there is a most. -/
def width : Regex α → Option Nat
  | .eps => some 0
  | .one _ => some 1
  | .edge => some 0
  | .seq r t => r.width.bind fun k => t.width.map (k + ·)
  | .alt r t => r.width.bind fun k => t.width.map (max k)
  | .rep _ high _ => some high
  | .star _ => none

theorem length_le_width {r : Regex α} (h : r.Fits word b w n) (hk : r.width = some k) :
    w.length ≤ k := by
  induction r generalizing b n w k with
  | eps =>
      rw [Fits] at h
      rw [h]
      exact Nat.zero_le _
  | one p =>
      obtain ⟨c, rfl, -⟩ := h
      obtain rfl := Option.some.inj hk
      exact le_rfl
  | edge =>
      rw [h.1]
      exact Nat.zero_le _
  | seq r t ihr iht =>
      obtain ⟨u, v, rfl, hu, hv⟩ := h
      obtain ⟨i, hi, hk⟩ := Option.bind_eq_some_iff.mp hk
      obtain ⟨j, hj, rfl⟩ := Option.map_eq_some_iff.mp hk
      rw [List.length_append]
      exact Nat.add_le_add (ihr hu hi) (iht hv hj)
  | alt r t ihr iht =>
      obtain ⟨i, hi, hk⟩ := Option.bind_eq_some_iff.mp hk
      obtain ⟨j, hj, rfl⟩ := Option.map_eq_some_iff.mp hk
      rcases h with h | h
      · exact (ihr h hi).trans (le_max_left _ _)
      · exact (iht h hj).trans (le_max_right _ _)
  | rep low high p =>
      obtain rfl := Option.some.inj hk
      exact h.2.1
  | star p => cases hk

end Regex

namespace GroupPattern

variable {α : Type}

def opt (p : GroupPattern α) : GroupPattern α := .alt p (.plain .eps)

def seqs : List (GroupPattern α) → GroupPattern α
  | [] => .plain .eps
  | [p] => p
  | p :: ps => .seq p (seqs ps)

/-- The groups that take part in every match. -/
def always : GroupPattern α → List String
  | .group name _ => [name]
  | .seq p q => p.always ++ q.always
  | .alt p q => p.always.filter (q.always.contains ·)
  | _ => []

/-- The groups and what they match. -/
def groups : GroupPattern α → List (String × Regex α)
  | .group name r => [(name, r)]
  | .seq p q => p.groups ++ q.groups
  | .alt p q => p.groups ++ q.groups
  | _ => []

/-- No group of that name can take more than `k` characters. -/
def narrow (p : GroupPattern α) (name : String) (k : Nat) : Bool :=
  p.groups.all fun g => g.1 != name || g.2.width.any (· ≤ k)

section Scan

variable (word : α → Bool)

/-- The ways to match in the order of a backtracking search. -/
def finds : GroupPattern α → Option α → List α → List (MatchEnd α)
  | .plain r, b, s => (r.rests word b s).map fun x => ⟨x.1, x.2, []⟩
  | .group name r, b, s =>
      (r.rests word b s).map fun x => ⟨x.1, x.2, [(name, s.take (s.length - x.2.length))]⟩
  | .notBehind p, b, s => if b.any p then [] else [⟨b, s, []⟩]
  | .notAhead r, b, s => if (r.rests word b s).isEmpty then [⟨b, s, []⟩] else []
  | .seq p q, b, s =>
      (p.finds b s).flatMap fun x =>
        (q.finds x.before x.rest).map fun y => { y with groups := x.groups ++ y.groups }
  | .alt p q, b, s => p.finds b s ++ q.finds b s

/-- `finditer`, from the place `pos`; `skip` characters belong to the last match.
A match without characters is passed over. -/
def finditer (p : GroupPattern α) : Nat → Option α → Nat → List α → List (Match α)
  | _, _, _, [] => []
  | pos, _, skip + 1, c :: s => finditer p (pos + 1) (some c) skip s
  | pos, b, 0, c :: s =>
      match (p.finds word b (c :: s)).head? with
      | none => finditer p (pos + 1) (some c) 0 s
      | some x =>
          match (c :: s).length - x.rest.length with
          | 0 => finditer p (pos + 1) (some c) 0 s
          | n + 1 =>
              ⟨pos, pos + n + 1, (c :: s).take (n + 1), x.groups⟩ ::
                finditer p (pos + 1) (some c) n s

variable {word} {p : GroupPattern α} {b : Option α} {pos skip : Nat} {s text w : List α}
  {m : Match α} {x : MatchEnd α} {name : String}

theorem mem_finds_seq {q : GroupPattern α} : x ∈ (p.seq q).finds word b s ↔
    ∃ y ∈ p.finds word b s, ∃ z ∈ q.finds word y.before y.rest,
      { z with groups := y.groups ++ z.groups } = x := by
  rw [finds, List.mem_flatMap]
  simp only [List.mem_map]

/-- A group that takes part in every match has taken something. -/
theorem mem_keys_of_mem_always (hname : name ∈ p.always) (hx : x ∈ p.finds word b s) :
    name ∈ x.groups.map Prod.fst := by
  induction p generalizing b s x with
  | plain r => cases hname
  | group key r =>
      obtain rfl := List.mem_singleton.mp hname
      obtain ⟨y, -, rfl⟩ := List.mem_map.mp hx
      exact List.mem_singleton_self _
  | notBehind p => cases hname
  | notAhead r => cases hname
  | seq p q ihp ihq =>
      obtain ⟨y, hy, z, hz, rfl⟩ := mem_finds_seq.mp hx
      rw [List.map_append, List.mem_append]
      exact (List.mem_append.mp hname).imp (ihp · hy) (ihq · hz)
  | alt p q ihp ihq =>
      obtain ⟨hp, hq⟩ := List.mem_filter.mp hname
      rcases List.mem_append.mp hx with hx | hx
      · exact ihp hp hx
      · exact ihq (List.contains_iff_mem.mp hq) hx

/-- What a group takes is what it matches. -/
theorem fits_of_mem_groups (hw : (name, w) ∈ x.groups) (hx : x ∈ p.finds word b s) :
    ∃ r, (name, r) ∈ p.groups ∧ ∃ b n, r.Fits word b w n := by
  induction p generalizing b s x with
  | plain r =>
      obtain ⟨y, -, rfl⟩ := List.mem_map.mp hx
      cases hw
  | group key r =>
      obtain ⟨y, hy, rfl⟩ := List.mem_map.mp hx
      obtain ⟨rfl, rfl⟩ := Prod.mk.inj (List.mem_singleton.mp hw)
      obtain ⟨w, rfl, -, hfits⟩ := Regex.mem_rests_iff.mp hy
      refine ⟨r, List.mem_singleton_self _, b, y.2.head?, ?_⟩
      rwa [List.length_append, Nat.add_sub_cancel, List.take_left]
  | notBehind p =>
      rw [finds] at hx
      split at hx
      · cases hx
      · obtain rfl := List.mem_singleton.mp hx
        cases hw
  | notAhead r =>
      rw [finds] at hx
      split at hx
      · obtain rfl := List.mem_singleton.mp hx
        cases hw
      · cases hx
  | seq p q ihp ihq =>
      obtain ⟨y, hy, z, hz, rfl⟩ := mem_finds_seq.mp hx
      rcases List.mem_append.mp hw with hw | hw
      · obtain ⟨r, hr, hfits⟩ := ihp hw hy
        exact ⟨r, List.mem_append_left _ hr, hfits⟩
      · obtain ⟨r, hr, hfits⟩ := ihq hw hz
        exact ⟨r, List.mem_append_right _ hr, hfits⟩
  | alt p q ihp ihq =>
      rcases List.mem_append.mp hx with hx | hx
      · obtain ⟨r, hr, hfits⟩ := ihp hw hx
        exact ⟨r, List.mem_append_left _ hr, hfits⟩
      · obtain ⟨r, hr, hfits⟩ := ihq hw hx
        exact ⟨r, List.mem_append_right _ hr, hfits⟩

/-- A match stands where the scan says, and is one of the ways to match there. -/
theorem of_mem_finditer (hs : text.drop pos = s) (hm : m ∈ p.finditer word pos b skip s) :
    m.At text ∧ ∃ b s, ∃ x ∈ p.finds word b s, m.groups = x.groups := by
  induction s generalizing pos b skip with
  | nil => cases skip <;> cases hm
  | cons c s ih =>
      have hnext : text.drop (pos + 1) = s := by
        rw [← List.drop_drop, hs]
        rfl
      cases skip with
      | succ skip => exact ih hnext hm
      | zero =>
          rw [finditer] at hm
          split at hm
          case h_1 => exact ih hnext hm
          case h_2 x hx =>
            split at hm
            case h_1 => exact ih hnext hm
            case h_2 n hn =>
              rcases List.mem_cons.mp hm with rfl | hm
              · have hlength : text.length - pos = (c :: s).length := by
                  rw [← List.length_drop, hs]
                refine ⟨⟨?_, ?_, ?_⟩, b, c :: s, x, List.mem_of_mem_head? hx, rfl⟩
                · simp only
                  omega
                · simp only
                  omega
                · simp only
                  rw [hs]
                  congr 1
                  omega
              · exact ih hnext hm

/-- A group that takes part in every match is there. -/
theorem group_of_mem_finditer (hs : text.drop pos = s) (hname : p.always.contains name = true)
    (hm : m ∈ p.finditer word pos b skip s) : ∃ w, m.group name = some w := by
  obtain ⟨-, b, s, x, hx, hgroups⟩ := of_mem_finditer hs hm
  have hkey := mem_keys_of_mem_always (List.contains_iff_mem.mp hname) hx
  obtain ⟨g, hg, rfl⟩ := List.mem_map.mp hkey
  rw [Match.group, hgroups, ← Option.isSome_iff_exists, List.lookup_isSome_iff]
  exact ⟨g, hg, beq_self_eq_true _⟩

/-- What a group takes is no longer than what it matches can be. -/
theorem length_group_le {k : Nat} (hs : text.drop pos = s)
    (hwidth : p.narrow name k = true) (hm : m ∈ p.finditer word pos b skip s)
    (hw : m.group name = some w) : w.length ≤ k := by
  obtain ⟨-, b, s, x, hx, hgroups⟩ := of_mem_finditer hs hm
  rw [Match.group, hgroups] at hw
  obtain ⟨front, back, hsplit, -⟩ := List.lookup_eq_some_iff.mp hw
  obtain ⟨r, hr, b', n, hfits⟩ :=
    fits_of_mem_groups (hsplit ▸ List.mem_append_right _ List.mem_cons_self) hx
  have hnarrow := List.all_eq_true.mp hwidth _ hr
  rw [Bool.or_eq_true, bne_self_eq_false, Option.any_eq_true] at hnarrow
  obtain ⟨k', hk', hle⟩ := hnarrow.resolve_left Bool.false_ne_true
  exact (Regex.length_le_width hfits hk').trans (of_decide_eq_true hle)

end Scan

end GroupPattern

end MarkSdk.Lib
