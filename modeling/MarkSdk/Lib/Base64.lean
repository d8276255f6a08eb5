import Mathlib.Data.List.Basic

/-!
Base64, as bytes of ASCII.

`encode` writes three bytes in four digits and pads the last group. `decode`
reads as a lenient reader does: it skips what is no digit, and ends at the
padding that completes a group. What was encoded is read back
(`decode_encode`).
-/

namespace MarkSdk.Lib.Base64

/-- `=` -/
def pad : UInt8 := 61

/-- The digit of a number below 64: `A-Z`, `a-z`, `0-9`, `+`, `/`. -/
def digit (n : Nat) : UInt8 :=
  if n < 26 then UInt8.ofNat (65 + n)
  else if n < 52 then UInt8.ofNat (71 + n)
  else if n < 62 then UInt8.ofNat (n - 4)
  else if n = 62 then 43 else 47

/-- The number of a digit. -/
def value? (c : UInt8) : Option Nat :=
  if 65 ≤ c ∧ c ≤ 90 then some (c.toNat - 65)
  else if 97 ≤ c ∧ c ≤ 122 then some (c.toNat - 71)
  else if 48 ≤ c ∧ c ≤ 57 then some (c.toNat + 4)
  else if c = 43 then some 62
  else if c = 47 then some 63
  else none

def encode : List UInt8 → List UInt8
  | [] => []
  | [a] => [digit (a.toNat / 4), digit (a.toNat % 4 * 16), pad, pad]
  | [a, b] =>
      [digit (a.toNat / 4), digit (a.toNat % 4 * 16 + b.toNat / 16), digit (b.toNat % 16 * 4), pad]
  | a :: b :: c :: rest =>
      digit (a.toNat / 4) :: digit (a.toNat % 4 * 16 + b.toNat / 16) ::
        digit (b.toNat % 16 * 4 + c.toNat / 64) :: digit (c.toNat % 64) :: encode rest

/-- Reading on at a place of the group, with the bits that are left over and
the padding seen there; nothing when the last group is not complete. -/
def decodeFrom (place left pads : Nat) : List UInt8 → Option (List UInt8)
  | [] => if place = 0 then some [] else none
  | c :: cs =>
      if c = pad then
        if 2 ≤ place then
          if 4 ≤ place + (pads + 1) then some [] else decodeFrom place left (pads + 1) cs
        else decodeFrom place left pads cs
      else
        match value? c with
        | none => decodeFrom place left pads cs
        | some v =>
            match place with
            | 0 => decodeFrom 1 v 0 cs
            | 1 => (decodeFrom 2 (v % 16) 0 cs).map (UInt8.ofNat (left * 4 + v / 16) :: ·)
            | 2 => (decodeFrom 3 (v % 4) 0 cs).map (UInt8.ofNat (left * 16 + v / 4) :: ·)
            | _ => (decodeFrom 0 0 0 cs).map (UInt8.ofNat (left * 64 + v) :: ·)

def decode (text : List UInt8) : Option (List UInt8) := decodeFrom 0 0 0 text

/-- `-` and `_` for `+` and `/`, as in URLs. -/
def decodeUrlSafe (text : List UInt8) : Option (List UInt8) :=
  decode (text.map fun c => if c = 45 then 43 else if c = 95 then 47 else c)

theorem value?_digit {n : Nat} (h : n < 64) : value? (digit n) = some n := by
  have hall : ∀ n : Fin 64, value? (digit n) = some n.val := by decide
  exact hall ⟨n, h⟩

theorem digit_ne_pad {n : Nat} (h : n < 64) : digit n ≠ pad := by
  have hall : ∀ n : Fin 64, digit n ≠ pad := by decide
  exact hall ⟨n, h⟩

section Reading

variable {left pads n : Nat} {cs : List UInt8}

theorem decodeFrom_zero (h : n < 64) :
    decodeFrom 0 left pads (digit n :: cs) = decodeFrom 1 n 0 cs := by
  simp [decodeFrom, digit_ne_pad h, value?_digit h]

theorem decodeFrom_one (h : n < 64) :
    decodeFrom 1 left pads (digit n :: cs) =
      (decodeFrom 2 (n % 16) 0 cs).map (UInt8.ofNat (left * 4 + n / 16) :: ·) := by
  simp [decodeFrom, digit_ne_pad h, value?_digit h]

theorem decodeFrom_two (h : n < 64) :
    decodeFrom 2 left pads (digit n :: cs) =
      (decodeFrom 3 (n % 4) 0 cs).map (UInt8.ofNat (left * 16 + n / 4) :: ·) := by
  simp [decodeFrom, digit_ne_pad h, value?_digit h]

theorem decodeFrom_three (h : n < 64) :
    decodeFrom 3 left pads (digit n :: cs) =
      (decodeFrom 0 0 0 cs).map (UInt8.ofNat (left * 64 + n) :: ·) := by
  simp [decodeFrom, digit_ne_pad h, value?_digit h]

end Reading

/-- A byte from the two parts of it that stand in neighbouring digits. -/
theorem ofNat_parts {a : UInt8} {n : Nat} (h : n = a.toNat) : UInt8.ofNat n = a := by
  rw [h, UInt8.ofNat_toNat]

theorem decode_encode (bytes : List UInt8) : decode (encode bytes) = some bytes := by
  unfold decode
  induction bytes using encode.induct with
  | case1 => rfl
  | case2 a =>
      have ha := a.toNat_lt
      have hfirst : a.toNat / 4 * 4 + a.toNat % 4 * 16 / 16 = a.toNat := by omega
      simp only [encode]
      rw [decodeFrom_zero (by omega), decodeFrom_one (by omega), ofNat_parts hfirst]
      simp [decodeFrom]
  | case3 a b =>
      have ha := a.toNat_lt
      have hb := b.toNat_lt
      have hfirst : a.toNat / 4 * 4 + (a.toNat % 4 * 16 + b.toNat / 16) / 16 = a.toNat := by omega
      have hsecond : (a.toNat % 4 * 16 + b.toNat / 16) % 16 * 16 + b.toNat % 16 * 4 / 4 =
          b.toNat := by omega
      simp only [encode]
      rw [decodeFrom_zero (by omega), decodeFrom_one (by omega), decodeFrom_two (by omega),
        ofNat_parts hfirst, ofNat_parts hsecond]
      simp [decodeFrom]
  | case4 a b c rest ih =>
      have ha := a.toNat_lt
      have hb := b.toNat_lt
      have hc := c.toNat_lt
      have hfirst : a.toNat / 4 * 4 + (a.toNat % 4 * 16 + b.toNat / 16) / 16 = a.toNat := by omega
      have hsecond : (a.toNat % 4 * 16 + b.toNat / 16) % 16 * 16 +
          (b.toNat % 16 * 4 + c.toNat / 64) / 4 = b.toNat := by omega
      have hthird : (b.toNat % 16 * 4 + c.toNat / 64) % 4 * 64 + c.toNat % 64 = c.toNat := by omega
      simp only [encode]
      rw [decodeFrom_zero (by omega), decodeFrom_one (by omega), decodeFrom_two (by omega),
        decodeFrom_three (by omega), ofNat_parts hfirst, ofNat_parts hsecond, ofNat_parts hthird,
        ih]
      rfl

end MarkSdk.Lib.Base64
