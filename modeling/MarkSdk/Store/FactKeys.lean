import Mathlib.Data.List.Chain
import Mathlib.Data.List.DropRight
import MarkSdk.Store.Values

/-!
Keys of subjects and attributes.

`_fact_key` folds blanks, takes quotes and brackets from both ends, and then
punctuation from the end. What the last step takes away may have stood behind
a quote or bracket, which is then at the end of the key and would go next
time: a key is its own key unless this happens (`factKey_factKey_iff`).
-/

namespace MarkSdk

/-! ### Keys of stripped texts -/

theorem stripChars_append_singleton {p : Char → Bool} {c : Char} (hc : p c = true)
    (s : List Char) : stripChars p (s ++ [c]) = stripChars p s := by
  unfold stripChars rstripChars
  by_cases hall : ∀ x ∈ s, p x = true
  · have hnil : s.dropWhile p = [] := List.dropWhile_eq_nil_iff.mpr hall
    have hnil' : (s ++ [c]).dropWhile p = [] := by
      refine List.dropWhile_eq_nil_iff.mpr fun x hx => ?_
      rcases List.mem_append.mp hx with hx | hx
      · exact hall x hx
      · rw [List.mem_singleton.mp hx]
        exact hc
    rw [hnil, hnil']
  · have hne : s.dropWhile p ≠ [] := fun h => hall (List.dropWhile_eq_nil_iff.mp h)
    have happend : (s ++ [c]).dropWhile p = s.dropWhile p ++ [c] := by
      rw [List.dropWhile_append, if_neg (by simpa using hne)]
    rw [happend, List.reverse_append, List.reverse_singleton, List.singleton_append,
      List.dropWhile_cons_of_pos hc]

theorem rstripChars_cons {p : Char → Bool} {c : Char} (hc : p c = false) (s : List Char) :
    rstripChars p (c :: s) = c :: rstripChars p s := by
  unfold rstripChars
  rw [List.reverse_cons, List.dropWhile_append]
  split
  · rename_i hempty
    rw [List.dropWhile_cons_of_neg (by simp [hc]), List.isEmpty_iff.mp hempty]
    rfl
  · rw [List.reverse_append]
    rfl

theorem stripChars_stripChars (p : Char → Bool) (s : List Char) :
    stripChars p (stripChars p s) = stripChars p s := by
  unfold stripChars
  cases h : s.dropWhile p with
  | nil => rfl
  | cons c rest =>
      have hc : p c = false := by
        have hhead := List.head?_dropWhile_not p s
        rw [h] at hhead
        simpa using hhead
      have hagain : rstripChars p (rstripChars p rest) = rstripChars p rest := by
        unfold rstripChars
        rw [List.reverse_reverse, List.dropWhile_idempotent]
      rw [rstripChars_cons hc, List.dropWhile_cons_of_neg (by simp [hc]), rstripChars_cons hc,
        hagain]

theorem strip_strip (text : String) : strip (strip text) = strip text := by
  unfold strip
  rw [String.toList_ofList, stripChars_stripChars]

/-- A space before the others leaves no more than a blank in front. -/
theorem stripChars_foldBlanks_cons {c : Char} (hc : isSpace c = true) (s : List Char) :
    stripChars isKeyWrap (foldBlanks (c :: s)) = stripChars isKeyWrap (foldBlanks s) := by
  have hkey : isKeySpace c = true := by simp [isKeySpace, hc]
  have hblank : isKeyWrap ' ' = true := by decide
  unfold stripChars
  cases s with
  | nil => simp [foldBlanks, hkey, hblank]
  | cons d s =>
      rw [foldBlanks, if_pos hkey]
      split
      · rfl
      · rw [List.dropWhile_cons_of_pos hblank]

theorem foldBlanks_append_singleton {c : Char} (hc : isKeySpace c = true) (s : List Char) :
    foldBlanks (s ++ [c]) = foldBlanks s ∨ foldBlanks (s ++ [c]) = foldBlanks s ++ [' '] := by
  fun_induction foldBlanks s with
  | case1 => exact .inr (by simp [foldBlanks, hc])
  | case2 d hd => exact .inl (by simp [foldBlanks, hc, hd])
  | case3 d hd => exact .inr (by simp [foldBlanks, hc, hd])
  | case4 d e s hd he ih => simpa [foldBlanks, hd, he] using ih
  | case5 d e s hd he ih => simpa [foldBlanks, hd, he] using ih
  | case6 d e s hd ih => simpa [foldBlanks, hd] using ih

/-- A key does not depend on the space around its text. -/
theorem stripChars_foldBlanks_strip (s : List Char) :
    stripChars isKeyWrap (foldBlanks (stripChars isSpace s)) =
      stripChars isKeyWrap (foldBlanks s) := by
  have hfront : ∀ s : List Char, stripChars isKeyWrap (foldBlanks (s.dropWhile isSpace)) =
      stripChars isKeyWrap (foldBlanks s) := by
    intro s
    induction s with
    | nil => rfl
    | cons c s ih =>
        cases hc : isSpace c with
        | false => rw [List.dropWhile_cons_of_neg (by simp [hc])]
        | true => rw [List.dropWhile_cons_of_pos hc, ih, stripChars_foldBlanks_cons hc]
  have hback : ∀ s : List Char, stripChars isKeyWrap (foldBlanks (rstripChars isSpace s)) =
      stripChars isKeyWrap (foldBlanks s) := by
    intro s
    induction s using List.reverseRecOn with
    | nil => rfl
    | append_singleton s c ih =>
        unfold rstripChars at ih ⊢
        rw [List.reverse_append, List.reverse_singleton, List.singleton_append]
        cases hc : isSpace c with
        | false => rw [List.dropWhile_cons_of_neg (by simp [hc])]; simp
        | true =>
            have hkey : isKeySpace c = true := by simp [isKeySpace, hc]
            rw [List.dropWhile_cons_of_pos hc, ih]
            rcases foldBlanks_append_singleton hkey s with h | h
            · rw [h]
            · rw [h, stripChars_append_singleton (by decide)]
  have hstrip : stripChars isSpace s = rstripChars isSpace (s.dropWhile isSpace) := rfl
  rw [hstrip, hback, hfront]

/-- `str.lower` leaves the space around a text. -/
def Python.LowerStrips (py : Python) : Prop :=
  ∀ text, py.lower (strip text) = strip (py.lower text)

theorem stripChars_map {p : Char → Bool} {f : Char → Char} (hf : ∀ c, p (f c) = p c)
    (s : List Char) : stripChars p (s.map f) = (stripChars p s).map f := by
  have hp : p ∘ f = p := funext hf
  unfold stripChars rstripChars
  rw [List.dropWhile_map, hp, ← List.map_reverse, List.dropWhile_map, hp, List.map_reverse]

theorem factKey_strip {py : Python} (hlower : py.LowerStrips) (text : String) :
    factKey py (strip text) = factKey py text := by
  have hquote : ∀ c : Char, isSpace (if c.toNat = 0x2019 then '\x27' else c) = isSpace c := by
    intro c
    split
    · rename_i hc
      simp [isSpace, hc]
    · rfl
  unfold factKey
  simp only
  rw [hlower, strip, String.toList_ofList, ← stripChars_map hquote, stripChars_foldBlanks_strip]

/-! ### Keys of keys -/

/-- `str.lower` leaves every character alone that it has made, and a text of
characters that it leaves alone; blanks and quotes are such characters. -/
structure Python.LowersOnce (py : Python) : Prop where
  fixed : ∀ text : String,
    (∀ c ∈ text.toList, py.lower (String.singleton c) = String.singleton c) → py.lower text = text
  lowered : ∀ text, ∀ c ∈ (py.lower text).toList,
    py.lower (String.singleton c) = String.singleton c
  blank : py.lower " " = " "
  quote : py.lower "'" = "'"

/-- What `_fact_key` folds: the text in lower case, with one kind of
apostrophe. -/
def keyChars (py : Python) (text : String) : List Char :=
  (py.lower text).toList.map fun c => if c.toNat = 0x2019 then '\x27' else c

/-- Blanks, quotes and brackets. -/
def isKeyEdge (c : Char) : Bool := isKeyWrap c || isKeySpace c

/-- Somewhere after its first proper character the text has a quote or
bracket, then nothing but blanks and punctuation, and then nothing but blanks,
quotes and brackets. -/
def EndsInQuote (s : List Char) : Prop :=
  ∃ before quote stops stop after, s = before ++ quote :: (stops ++ stop :: after) ∧
    (∃ c ∈ before, isKeyEdge c = false) ∧ (isKeyWrap quote = true ∧ quote ≠ ' ') ∧
    (∀ c ∈ stops, isKeyTail c = true ∨ isKeySpace c = true) ∧
    (isKeyTail stop = true ∧ stop ≠ ' ') ∧ ∀ c ∈ after, isKeyEdge c = true

theorem rstripChars_append_of_all {p : Char → Bool} {b : List Char} (hb : ∀ c ∈ b, p c = true)
    (s : List Char) : rstripChars p (s ++ b) = rstripChars p s := by
  unfold rstripChars
  rw [List.reverse_append, List.dropWhile_append]
  have hnil : b.reverse.dropWhile p = [] :=
    List.dropWhile_eq_nil_iff.mpr fun c hc => hb c (List.mem_reverse.mp hc)
  rw [hnil]
  rfl

theorem rstripChars_append_singleton {p : Char → Bool} {c : Char} (hc : p c = false)
    (s : List Char) : rstripChars p (s ++ [c]) = s ++ [c] := by
  unfold rstripChars
  rw [List.reverse_append, List.reverse_singleton, List.singleton_append,
    List.dropWhile_cons_of_neg (by simp [hc]), List.reverse_cons, List.reverse_reverse]

/-- What is left of a text, and what was stripped from its end. -/
theorem exists_rstripChars (p : Char → Bool) (s : List Char) :
    ∃ b, s = rstripChars p s ++ b ∧ (∀ c ∈ b, p c = true) ∧
      ∀ c ∈ (rstripChars p s).getLast?, p c = false := by
  refine ⟨(s.reverse.takeWhile p).reverse, ?_, ?_, ?_⟩
  · unfold rstripChars
    rw [← List.reverse_append, List.takeWhile_append_dropWhile, List.reverse_reverse]
  · intro c hc
    exact List.mem_takeWhile_imp (List.mem_reverse.mp hc)
  · intro c hc
    unfold rstripChars at hc
    rw [List.getLast?_reverse] at hc
    have hhead := List.head?_dropWhile_not p s.reverse
    rw [Option.mem_def.mp hc] at hhead
    simpa using hhead

/-- What is left of a text, and what was stripped from both sides. -/
theorem exists_stripChars (p : Char → Bool) (s : List Char) :
    ∃ a b, s = a ++ (stripChars p s ++ b) ∧ (∀ c ∈ b, p c = true) ∧
      (∀ c ∈ (stripChars p s).head?, p c = false) ∧
        ∀ c ∈ (stripChars p s).getLast?, p c = false := by
  obtain ⟨b, hsplit, hb, hlast⟩ := exists_rstripChars p (s.dropWhile p)
  refine ⟨s.takeWhile p, b, ?_, hb, ?_, hlast⟩
  · rw [stripChars, ← hsplit, List.takeWhile_append_dropWhile]
  · intro c hc
    have hhead := List.head?_dropWhile_not p s
    have hfound : (rstripChars p (s.dropWhile p)).head? = some c := hc
    rw [hsplit, List.head?_append, hfound] at hhead
    simpa using hhead

/-- A text that is stripped on both sides, and then behind, ends with a
character of the first kind. -/
theorem getLast?_rstripChars_stripChars {p t : Char → Bool} {s : List Char} :
    (∃ c ∈ (rstripChars t (stripChars p s)).getLast?, p c = true) ↔
      ∃ a w b x c, s = a ++ w :: (b ++ x :: c) ∧ (∃ d ∈ a, p d = false) ∧
        (p w = true ∧ t w = false) ∧ (∀ y ∈ b, t y = true) ∧ (t x = true ∧ p x = false) ∧
          ∀ y ∈ c, p y = true := by
  constructor
  · rintro ⟨w, hw, hpw⟩
    obtain ⟨front, c, hs, hc, hhead, hlast⟩ := exists_stripChars p s
    obtain ⟨stops, hstrip, hstops, htail⟩ := exists_rstripChars t (stripChars p s)
    obtain ⟨k, hk⟩ := List.getLast?_eq_some_iff.mp (Option.mem_def.mp hw)
    have htw := htail w hw
    rw [hk] at hstrip
    -- the last stop is what stood behind `w`, and `w` is not the first character
    rcases List.eq_nil_or_concat stops with rfl | ⟨b, x, rfl⟩
    · have hend := hlast w (by rw [hstrip]; simp)
      rw [hpw] at hend
      cases hend
    · have hlist : stripChars p s = (k ++ [w] ++ b) ++ [x] := by
        rw [hstrip, List.concat_eq_append]
        simp only [List.append_assoc]
      have hpx := hlast x (by rw [hlist, List.getLast?_concat]; rfl)
      cases k with
      | nil =>
          have hend := hhead w (by rw [hstrip]; simp)
          rw [hpw] at hend
          cases hend
      | cons d k =>
          have hpd := hhead d (by rw [hstrip]; simp)
          refine ⟨front ++ d :: k, w, b, x, c, ?_, ⟨d, by simp, hpd⟩, ⟨hpw, htw⟩,
            fun y hy => hstops y (by simp [hy]), ⟨hstops x (by simp), hpx⟩, hc⟩
          rw [hs, hstrip]
          simp
  · rintro ⟨a, w, b, x, c, rfl, ⟨d, hd, hpd⟩, ⟨hpw, htw⟩, hb, ⟨htx, hpx⟩, hc⟩
    have hne : a.dropWhile p ≠ [] := by
      intro hnil
      rw [List.dropWhile_eq_nil_iff.mp hnil d hd] at hpd
      cases hpd
    have hfront : (a ++ w :: (b ++ x :: c)).dropWhile p =
        ((a.dropWhile p ++ w :: b) ++ [x]) ++ c := by
      rw [List.dropWhile_append, if_neg (by simpa using hne)]
      simp
    refine ⟨w, ?_, hpw⟩
    rw [stripChars, hfront, rstripChars_append_of_all hc, rstripChars_append_singleton hpx]
    have hstops : (a.dropWhile p ++ w :: b) ++ [x] = (a.dropWhile p ++ [w]) ++ (b ++ [x]) := by
      simp
    have hall : ∀ y ∈ b ++ [x], t y = true := by
      intro y hy
      rcases List.mem_append.mp hy with hy | hy
      · exact hb y hy
      · exact List.mem_singleton.mp hy ▸ htx
    rw [hstops, rstripChars_append_of_all hall, rstripChars_append_singleton htw]
    simp

/-! ### Folded blanks -/

theorem foldBlanks_cons_of_not {c : Char} (hc : isKeySpace c = false) (s : List Char) :
    foldBlanks (c :: s) = c :: foldBlanks s := by
  cases s with
  | nil => simp [foldBlanks, hc]
  | cons d s => rw [foldBlanks, if_neg (by simp [hc])]

/-- A proper character stays, and divides what is folded. -/
theorem foldBlanks_append_cons {c : Char} (hc : isKeySpace c = false) (a b : List Char) :
    foldBlanks (a ++ c :: b) = foldBlanks a ++ c :: foldBlanks b := by
  fun_induction foldBlanks a with
  | case1 => exact foldBlanks_cons_of_not hc b
  | case2 d hd =>
      rw [List.singleton_append, foldBlanks, if_pos hd, if_neg (by simp [hc]),
        foldBlanks_cons_of_not hc]
      rfl
  | case3 d hd =>
      rw [List.singleton_append, foldBlanks_cons_of_not (by simpa using hd),
        foldBlanks_cons_of_not hc]
      rfl
  | case4 d e s hd he ih => simpa [foldBlanks, hd, he] using ih
  | case5 d e s hd he ih => simpa [foldBlanks, hd, he] using ih
  | case6 d e s hd ih => simpa [foldBlanks, hd] using ih

/-- What is folded is blanks and the proper characters. -/
theorem mem_foldBlanks {c : Char} {s : List Char} (h : c ∈ foldBlanks s) :
    c = ' ' ∨ (c ∈ s ∧ isKeySpace c = false) := by
  fun_induction foldBlanks s with
  | case1 => cases h
  | case2 d hd => exact .inl (List.mem_singleton.mp h)
  | case3 d hd =>
      obtain rfl := List.mem_singleton.mp h
      exact .inr ⟨List.mem_singleton.mpr rfl, by simpa using hd⟩
  | case4 d e s hd he ih =>
      rcases ih h with hblank | ⟨hin, hproper⟩
      · exact .inl hblank
      · exact .inr ⟨List.mem_cons_of_mem d hin, hproper⟩
  | case5 d e s hd he ih =>
      rcases List.mem_cons.mp h with hblank | h
      · exact .inl hblank
      · rcases ih h with hblank | ⟨hin, hproper⟩
        · exact .inl hblank
        · exact .inr ⟨List.mem_cons_of_mem d hin, hproper⟩
  | case6 d e s hd ih =>
      rcases List.mem_cons.mp h with rfl | h
      · exact .inr ⟨List.mem_cons_self, by simpa using hd⟩
      · rcases ih h with hblank | ⟨hin, hproper⟩
        · exact .inl hblank
        · exact .inr ⟨List.mem_cons_of_mem d hin, hproper⟩

theorem mem_foldBlanks_of {c : Char} {s : List Char} (hc : isKeySpace c = false) (h : c ∈ s) :
    c ∈ foldBlanks s := by
  obtain ⟨a, b, rfl⟩ := List.append_of_mem h
  rw [foldBlanks_append_cons hc]
  exact List.mem_append_right _ List.mem_cons_self

/-- A proper character of the folded text is one of the text. -/
theorem exists_of_foldBlanks_eq {c : Char} (hc : isKeySpace c = false) {s a b : List Char}
    (h : foldBlanks s = a ++ c :: b) :
    ∃ a' b', s = a' ++ c :: b' ∧ foldBlanks a' = a ∧ foldBlanks b' = b := by
  have hne : c ≠ ' ' := by
    rintro rfl
    exact absurd hc (by decide)
  fun_induction foldBlanks s generalizing a with
  | case1 => simp at h
  | case2 d hd =>
      cases a with
      | nil => exact absurd (List.cons.inj h).1.symm hne
      | cons _ a => simp at h
  | case3 d hd =>
      cases a with
      | nil =>
          obtain ⟨rfl, rfl⟩ := List.cons.inj h
          exact ⟨[], [], rfl, rfl, rfl⟩
      | cons _ a => simp at h
  | case4 d e s hd he ih =>
      obtain ⟨a', b', hs, ha, hb⟩ := ih h
      refine ⟨d :: a', b', by rw [hs, List.cons_append], ?_, hb⟩
      cases a' with
      | nil =>
          obtain ⟨rfl, -⟩ := List.cons.inj hs
          rw [hc] at he
          cases he
      | cons e' a' =>
          obtain ⟨rfl, -⟩ := List.cons.inj hs
          rw [foldBlanks, if_pos hd, if_pos he, ha]
  | case5 d e s hd he ih =>
      cases a with
      | nil => exact absurd (List.cons.inj h).1.symm hne
      | cons f a =>
          obtain ⟨rfl, hrest⟩ := List.cons.inj h
          obtain ⟨a', b', hs, ha, hb⟩ := ih hrest
          refine ⟨d :: a', b', by rw [hs, List.cons_append], ?_, hb⟩
          cases a' with
          | nil =>
              rw [← ha]
              simp [foldBlanks, hd]
          | cons e' a' =>
              obtain ⟨rfl, -⟩ := List.cons.inj hs
              rw [foldBlanks, if_pos hd, if_neg he, ha]
  | case6 d e s hd ih =>
      cases a with
      | nil =>
          obtain ⟨rfl, rfl⟩ := List.cons.inj h
          exact ⟨[], e :: s, rfl, rfl, rfl⟩
      | cons f a =>
          obtain ⟨rfl, hrest⟩ := List.cons.inj h
          obtain ⟨a', b', hs, ha, hb⟩ := ih hrest
          refine ⟨d :: a', b', by rw [hs, List.cons_append], ?_, hb⟩
          rw [foldBlanks_cons_of_not (by simpa using hd), ha]

/-- A quote or bracket is neither a blank nor punctuation. -/
theorem class_of_isKeyWrap {c : Char} (hc : isKeyWrap c = true) (hne : c ≠ ' ') :
    isKeySpace c = false ∧ isKeyTail c = false := by
  have hin : c = ' ' ∨ c = '\x22' ∨ c = '\x27' ∨ c = '(' ∨ c = ')' ∨ c = '[' ∨ c = ']' ∨
      c = '\x7b' ∨ c = '\x7d' := by simpa [isKeyWrap] using hc
  rcases hin with rfl | rfl | rfl | rfl | rfl | rfl | rfl | rfl | rfl
  · exact absurd rfl hne
  all_goals decide

/-- Punctuation is neither a blank nor a quote or bracket. -/
theorem class_of_isKeyTail {c : Char} (hc : isKeyTail c = true) (hne : c ≠ ' ') :
    isKeySpace c = false ∧ isKeyWrap c = false := by
  have hin : c = ' ' ∨ c = '.' ∨ c = ',' ∨ c = ';' ∨ c = ':' ∨ c = '!' ∨ c = '?' := by
    simpa [isKeyTail] using hc
  rcases hin with rfl | rfl | rfl | rfl | rfl | rfl | rfl
  · exact absurd rfl hne
  all_goals decide

/-- Folding the blanks does not change how the text ends. -/
theorem endsInQuote_foldBlanks {s : List Char} :
    EndsInQuote (foldBlanks s) ↔ EndsInQuote s := by
  have hblank : isKeySpace ' ' = true := by decide
  have hedge : ∀ c, isKeyEdge c = false → isKeySpace c = false := by
    intro c hc
    exact (Bool.or_eq_false_iff.mp hc).2
  constructor
  · rintro ⟨a, w, b, x, c, hs, ⟨d, hd, hproper⟩, ⟨hw, hwne⟩, hb, ⟨hx, hxne⟩, hc⟩
    obtain ⟨a', rest, rfl, rfl, hrest⟩ := exists_of_foldBlanks_eq (class_of_isKeyWrap hw hwne).1 hs
    obtain ⟨b', c', rfl, rfl, rfl⟩ := exists_of_foldBlanks_eq (class_of_isKeyTail hx hxne).1 hrest
    refine ⟨a', w, b', x, c', rfl, ⟨d, ?_, hproper⟩, ⟨hw, hwne⟩, ?_, ⟨hx, hxne⟩, ?_⟩
    · rcases mem_foldBlanks hd with rfl | ⟨hin, -⟩
      · exact absurd hproper (by decide)
      · exact hin
    · intro y hy
      cases hspace : isKeySpace y with
      | true => exact .inr rfl
      | false =>
          rcases hb y (mem_foldBlanks_of hspace hy) with htail | hkey
          · exact .inl htail
          · rw [hspace] at hkey
            cases hkey
    · intro y hy
      cases hspace : isKeySpace y with
      | true => rw [isKeyEdge, hspace, Bool.or_true]
      | false => exact hc y (mem_foldBlanks_of hspace hy)
  · rintro ⟨a, w, b, x, c, rfl, ⟨d, hd, hproper⟩, ⟨hw, hwne⟩, hb, ⟨hx, hxne⟩, hc⟩
    refine ⟨foldBlanks a, w, foldBlanks b, x, foldBlanks c, ?_,
      ⟨d, mem_foldBlanks_of (hedge d hproper) hd, hproper⟩, ⟨hw, hwne⟩, ?_, ⟨hx, hxne⟩, ?_⟩
    · rw [foldBlanks_append_cons (class_of_isKeyWrap hw hwne).1, foldBlanks_append_cons (class_of_isKeyTail hx hxne).1]
    · intro y hy
      rcases mem_foldBlanks hy with rfl | ⟨hin, -⟩
      · exact .inr hblank
      · exact hb y hin
    · intro y hy
      rcases mem_foldBlanks hy with rfl | ⟨hin, -⟩
      · decide
      · exact hc y hin

/-- The only blank of a folded text. -/
theorem eq_blank_of_mem_foldBlanks {c : Char} {s : List Char} (h : c ∈ foldBlanks s)
    (hc : isKeySpace c = true) : c = ' ' := by
  rcases mem_foldBlanks h with hblank | ⟨-, hproper⟩
  · exact hblank
  · rw [hproper] at hc
    cases hc

/-- The key ends with a quote or bracket in just these cases. -/
theorem getLast?_key_iff {s : List Char} :
    (∃ c ∈ (rstripChars isKeyTail (stripChars isKeyWrap (foldBlanks s))).getLast?,
      isKeyWrap c = true) ↔ EndsInQuote s := by
  have htail : isKeyTail ' ' = true := by decide
  have hwrap : isKeyWrap ' ' = true := by decide
  rw [getLast?_rstripChars_stripChars, ← endsInQuote_foldBlanks]
  constructor
  · rintro ⟨a, w, b, x, c, hs, ⟨d, hd, hpd⟩, ⟨hw, htw⟩, hb, ⟨hx, hpx⟩, hc⟩
    refine ⟨a, w, b, x, c, hs, ⟨d, hd, ?_⟩, ⟨hw, ?_⟩, fun y hy => .inl (hb y hy), ⟨hx, ?_⟩,
      fun y hy => by rw [isKeyEdge, hc y hy, Bool.true_or]⟩
    · cases hspace : isKeySpace d with
      | false => rw [isKeyEdge, hpd, hspace, Bool.or_false]
      | true =>
          rw [eq_blank_of_mem_foldBlanks (by rw [hs]; simp [hd]) hspace] at hpd
          exact absurd hpd (by decide)
    · rintro rfl
      exact absurd htw (by decide)
    · rintro rfl
      exact absurd hpx (by decide)
  · rintro ⟨a, w, b, x, c, hs, ⟨d, hd, hproper⟩, ⟨hw, hwne⟩, hb, ⟨hx, hxne⟩, hc⟩
    refine ⟨a, w, b, x, c, hs, ⟨d, hd, (Bool.or_eq_false_iff.mp hproper).1⟩,
      ⟨hw, (class_of_isKeyWrap hw hwne).2⟩, ?_, ⟨hx, (class_of_isKeyTail hx hxne).2⟩, ?_⟩
    · intro y hy
      rcases hb y hy with hstop | hspace
      · exact hstop
      · rw [eq_blank_of_mem_foldBlanks (by rw [hs]; simp [hy]) hspace]
        exact htail
    · intro y hy
      rcases Bool.or_eq_true_iff.mp (hc y hy) with hy' | hspace
      · exact hy'
      · rw [eq_blank_of_mem_foldBlanks (by rw [hs]; simp [hy]) hspace]
        exact hwrap

/-- Not two blanks side by side, and none but the folded one. -/
def Folded (s : List Char) : Prop :=
  s.IsChain (fun c d => ¬ (isKeySpace c = true ∧ isKeySpace d = true)) ∧
    ∀ c ∈ s, isKeySpace c = true → c = ' '

theorem folded_foldBlanks (s : List Char) : Folded (foldBlanks s) := by
  refine ⟨?_, fun c hc hspace => eq_blank_of_mem_foldBlanks hc hspace⟩
  fun_induction foldBlanks s with
  | case1 => exact .nil
  | case2 d hd => exact .singleton _
  | case3 d hd => exact .singleton _
  | case4 d e s hd he ih => exact ih
  | case5 d e s hd he ih =>
      rw [foldBlanks_cons_of_not (by simpa using he)] at ih ⊢
      exact .cons_cons (by simp [he]) ih
  | case6 d e s hd ih =>
      cases hrest : foldBlanks (e :: s) with
      | nil => exact .singleton _
      | cons f rest =>
          rw [hrest] at ih
          exact .cons_cons (by simp [hd]) ih

theorem Folded.foldBlanks {s : List Char} (h : Folded s) : foldBlanks s = s := by
  obtain ⟨hchain, hblank⟩ := h
  fun_induction MarkSdk.foldBlanks s with
  | case1 => rfl
  | case2 d hd => rw [hblank d List.mem_cons_self hd]
  | case3 d hd => rfl
  | case4 d e s hd he ih => exact absurd ⟨hd, he⟩ hchain.rel
  | case5 d e s hd he ih =>
      rw [ih hchain.tail fun c hc => hblank c (List.mem_cons_of_mem d hc),
        hblank d List.mem_cons_self hd]
  | case6 d e s hd ih => rw [ih hchain.tail fun c hc => hblank c (List.mem_cons_of_mem d hc)]

theorem Folded.part {s t : List Char} (h : Folded s) (hpart : t <:+: s) : Folded t :=
  ⟨ List.IsChain.infix h.1 hpart, fun c hc => h.2 c (hpart.subset hc)⟩

/-! ### Fixed points -/

theorem rstripChars_eq_self {p : Char → Bool} {s : List Char}
    (h : ∀ c ∈ s.getLast?, p c = false) : rstripChars p s = s := by
  rcases List.eq_nil_or_concat s with rfl | ⟨rest, c, rfl⟩
  · rfl
  · rw [List.concat_eq_append] at h ⊢
    exact rstripChars_append_singleton (h c (by rw [List.getLast?_concat]; rfl)) rest

theorem stripChars_eq_self {p : Char → Bool} {s : List Char} (hhead : ∀ c ∈ s.head?, p c = false)
    (hlast : ∀ c ∈ s.getLast?, p c = false) : stripChars p s = s := by
  have hdrop : s.dropWhile p = s := by
    cases s with
    | nil => rfl
    | cons c s => exact List.dropWhile_cons_of_neg (by simp [hhead c rfl])
  rw [stripChars, hdrop, rstripChars_eq_self hlast]

theorem rstripChars_isLeft (p : Char → Bool) (s : List Char) : rstripChars p s <+: s := by
  obtain ⟨b, hs, -⟩ := exists_rstripChars p s
  exact ⟨b, hs.symm⟩

theorem stripChars_part (p : Char → Bool) (s : List Char) : stripChars p s <:+: s := by
  obtain ⟨a, b, hs, -⟩ := exists_stripChars p s
  exact ⟨a, b, by rw [List.append_assoc]; exact hs.symm⟩

/-- A stripped text is stripped to itself unless its end was uncovered. -/
theorem strip_key_eq_iff {p t : Char → Bool} (s : List Char) :
    rstripChars t (stripChars p (rstripChars t (stripChars p s))) =
        rstripChars t (stripChars p s) ↔
      ¬ ∃ c ∈ (rstripChars t (stripChars p s)).getLast?, p c = true := by
  obtain ⟨a, b, -, -, hhead, -⟩ := exists_stripChars p s
  obtain ⟨c, hstrip, -, htail⟩ := exists_rstripChars t (stripChars p s)
  generalize rstripChars t (stripChars p s) = k at hstrip htail ⊢
  constructor
  · rintro hfixed ⟨w, hw, hpw⟩
    have hsame : stripChars p k = k := by
      refine (stripChars_part p k).sublist.eq_of_length_le ?_
      calc k.length = (rstripChars t (stripChars p k)).length := by rw [hfixed]
        _ ≤ (stripChars p k).length := (rstripChars_isLeft t _).length_le
    obtain ⟨_, _, -, -, -, hlast⟩ := exists_stripChars p k
    rw [hsame] at hlast
    rw [hlast w hw] at hpw
    cases hpw
  · intro hnone
    have hkhead : ∀ d ∈ k.head?, p d = false := by
      intro d hd
      have hfound : k.head? = some d := hd
      refine hhead d ?_
      rw [hstrip, List.head?_append, hfound]
      rfl
    have hklast : ∀ d ∈ k.getLast?, p d = false := by
      intro d hd
      cases hpd : p d with
      | false => rfl
      | true => exact absurd ⟨d, hd, hpd⟩ hnone
    rw [stripChars_eq_self hkhead hklast, rstripChars_eq_self htail]

/-- The characters of a key are those that `_fact_key` leaves alone. -/
theorem keyChars_factKey {py : Python} (hlower : py.LowersOnce) (text : String) :
    keyChars py (factKey py text) =
      rstripChars isKeyTail (stripChars isKeyWrap (foldBlanks (keyChars py text))) := by
  have hchars : ∀ c ∈ keyChars py text, py.lower (String.singleton c) = String.singleton c ∧
      c.toNat ≠ 0x2019 := by
    intro c hc
    obtain ⟨d, hd, rfl⟩ := List.mem_map.mp hc
    split
    · exact ⟨hlower.quote, by decide⟩
    · rename_i hne
      exact ⟨hlower.lowered text d hd, hne⟩
  have hkey : ∀ c ∈ rstripChars isKeyTail (stripChars isKeyWrap (foldBlanks (keyChars py text))),
      py.lower (String.singleton c) = String.singleton c ∧ c.toNat ≠ 0x2019 := by
    intro c hc
    have hfold := (stripChars_part _ _).subset ((rstripChars_isLeft _ _).subset hc)
    rcases mem_foldBlanks hfold with rfl | ⟨hin, -⟩
    · exact ⟨hlower.blank, by decide⟩
    · exact hchars c hin
  have hdef : factKey py text = String.ofList
      (rstripChars isKeyTail (stripChars isKeyWrap (foldBlanks (keyChars py text)))) := rfl
  rw [hdef, keyChars, hlower.fixed _ fun c hc => (hkey c (by simpa using hc)).1,
    String.toList_ofList]
  conv_rhs => rw [← List.map_id (rstripChars isKeyTail _)]
  exact List.map_congr_left fun c hc => if_neg (hkey c hc).2

/-- A key is its own key unless its text ends in a quote. -/
theorem factKey_factKey_iff {py : Python} (hlower : py.LowersOnce) (text : String) :
    factKey py (factKey py text) = factKey py text ↔ ¬ EndsInQuote (keyChars py text) := by
  have hfolded : foldBlanks (rstripChars isKeyTail (stripChars isKeyWrap
      (foldBlanks (keyChars py text)))) =
        rstripChars isKeyTail (stripChars isKeyWrap (foldBlanks (keyChars py text))) := by
    refine (folded_foldBlanks (keyChars py text)).part ?_ |>.foldBlanks
    exact (rstripChars_isLeft _ _).isInfix.trans (stripChars_part _ _)
  have hagain : factKey py (factKey py text) = String.ofList (rstripChars isKeyTail
      (stripChars isKeyWrap (foldBlanks (keyChars py (factKey py text))))) := rfl
  have honce : factKey py text = String.ofList
      (rstripChars isKeyTail (stripChars isKeyWrap (foldBlanks (keyChars py text)))) := rfl
  rw [hagain, keyChars_factKey hlower, hfolded, honce, String.ofList_inj, strip_key_eq_iff,
    getLast?_key_iff]

/-! ### ASCII -/

theorem isSpace_ascii {c : Char} (hlow : 33 ≤ c.toNat) (hhigh : c.toNat ≤ 132) :
    isSpace c = false := by
  unfold isSpace
  simp only [List.contains_eq_mem, Bool.or_eq_false_iff, Bool.and_eq_false_iff,
    decide_eq_false_iff_not, List.mem_cons, List.not_mem_nil, or_false]
  omega

theorem toNat_toLower {c : Char} (h : c.val ≥ 'A'.val ∧ c.val ≤ 'Z'.val) :
    65 ≤ c.toNat ∧ c.toNat ≤ 90 ∧ (c.val + ('a'.val - 'A'.val)).toNat = c.toNat + 32 := by
  have hlow : 65 ≤ c.toNat := UInt32.le_iff_toNat_le.mp h.1
  have hhigh : c.toNat ≤ 90 := UInt32.le_iff_toNat_le.mp h.2
  refine ⟨hlow, hhigh, ?_⟩
  rw [UInt32.toNat_add]
  show (c.toNat + 32) % 2 ^ 32 = c.toNat + 32
  omega

theorem toLower_eq_self_of_le {c : Char} (h : 91 ≤ c.toNat) : c.toLower = c := by
  unfold Char.toLower
  split
  · rename_i hupper
    have := (toNat_toLower hupper).2.1
    omega
  · rfl

theorem toLower_idempotent (c : Char) : c.toLower.toLower = c.toLower := by
  by_cases hupper : c.val ≥ 'A'.val ∧ c.val ≤ 'Z'.val
  · obtain ⟨hlow, -, hval⟩ := toNat_toLower hupper
    refine toLower_eq_self_of_le ?_
    unfold Char.toLower
    rw [dif_pos hupper]
    show 91 ≤ (c.val + ('a'.val - 'A'.val)).toNat
    omega
  · have hsame : c.toLower = c := by
      unfold Char.toLower
      rw [dif_neg hupper]
    rw [hsame, hsame]

theorem isSpace_toLower (c : Char) : isSpace c.toLower = isSpace c := by
  unfold Char.toLower
  split
  · rename_i hupper
    obtain ⟨hlow, hhigh, hval⟩ := toNat_toLower hupper
    have hspace : isSpace c = false := isSpace_ascii (by omega) (by omega)
    rw [hspace]
    refine isSpace_ascii ?_ ?_
    · show 33 ≤ (c.val + ('a'.val - 'A'.val)).toNat
      omega
    · show (c.val + ('a'.val - 'A'.val)).toNat ≤ 132
      omega
  · rfl

theorem lowerStrips_basic : Python.basic.LowerStrips := by
  intro text
  show String.ofList ((strip text).toList.map Char.toLower) =
    strip (String.ofList (text.toList.map Char.toLower))
  rw [strip, strip, String.toList_ofList, String.toList_ofList, stripChars_map isSpace_toLower]

theorem lowersOnce_basic : Python.basic.LowersOnce where
  fixed text h := by
    have hmap : text.toList.map Char.toLower = text.toList := by
      conv_rhs => rw [← List.map_id text.toList]
      refine List.map_congr_left fun c hc => ?_
      have hlist := congrArg String.toList (h c hc)
      simpa [Python.basic] using hlist
    show String.ofList (text.toList.map Char.toLower) = text
    rw [hmap, String.ofList_toList]
  lowered text c hc := by
    have hin : c ∈ text.toList.map Char.toLower := by simpa [Python.basic] using hc
    obtain ⟨d, -, rfl⟩ := List.mem_map.mp hin
    show String.ofList ((String.singleton d.toLower).toList.map Char.toLower) = _
    rw [String.toList_singleton, List.map_singleton, toLower_idempotent]
    rfl
  blank := by decide
  quote := by decide

end MarkSdk
