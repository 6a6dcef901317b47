import CardScanner.Decimal
import Mathlib.Data.List.DropRight
import Mathlib.Data.List.Infix
import Mathlib.Tactic.Linarith

/-!
# Characters and strings in Java

What the standard library's `Character.isDigit`, `Character.digit`,
`Integer.parseInt`, `String.trim`, `String.length`, `String.indexOf`,
`String.contains` and `String.equalsIgnoreCase` do, and `String.split` at one
character.  Strings are lists of code points.
-/

namespace CardScanner

open Decimal

/-- The zero of every block of decimal digits in the Basic Multilingual Plane. -/
def digitZeros : List Nat :=
  [0x30, 0x660, 0x6F0, 0x7C0, 0x966, 0x9E6, 0xA66, 0xAE6, 0xB66, 0xBE6, 0xC66, 0xCE6, 0xD66,
    0xDE6, 0xE50, 0xED0, 0xF20, 0x1040, 0x1090, 0x17E0, 0x1810, 0x1946, 0x19D0, 0x1A80, 0x1A90,
    0x1B50, 0x1BB0, 0x1C40, 0x1C50, 0xA620, 0xA8D0, 0xA900, 0xA9D0, 0xA9F0, 0xAA50, 0xABF0, 0xFF10]

/-- `Character.isDigit`: the decimal digits of every script, ten behind each
zero. -/
def isDigit (c : Char) : Bool :=
  digitZeros.any fun first => first ≤ c.toNat && c.toNat < first + 10

/-- `Character.digit` in base ten. -/
def digit (c : Char) : Option Nat :=
  (digitZeros.find? fun first => first ≤ c.toNat && c.toNat < first + 10).map (c.toNat - ·)

/-- `String.trim`: everything up to the space goes at both ends, control
characters as well. -/
def trim (s : List Char) : List Char :=
  (s.dropWhile fun c => c.toNat ≤ 32).rdropWhile fun c => c.toNat ≤ 32

/-- The number of `char`s of a string: characters beyond the Basic Multilingual
Plane take two. -/
def charCount (s : List Char) : Nat := (s.map fun c => if c.toNat < 0x10000 then 1 else 2).sum

/-- The value of a nonempty digit string. -/
def parseDigits : List Char → Option Nat
  | [] => none
  | ds => ds.foldlM (fun n c => (digit c).map (n * 10 + ·)) 0

/-- `Integer.parseInt`; no result stands for a `NumberFormatException`. -/
def parseInt : List Char → Option Int
  | '-' :: ds => (parseDigits ds).bind fun n => if n ≤ 2 ^ 31 then some (-n) else none
  | '+' :: ds => (parseDigits ds).bind fun n => if n < 2 ^ 31 then some n else none
  | ds => (parseDigits ds).bind fun n => if n < 2 ^ 31 then some n else none

/-- `String.indexOf` of a string. -/
def indexOf (pattern : List Char) : List Char → Option Nat
  | [] => if pattern = [] then some 0 else none
  | c :: s => if pattern.isPrefixOf (c :: s) then some 0 else (indexOf pattern s).map (· + 1)

/-- `String.contains`, of a pattern that may be empty. -/
def contains (s pattern : List Char) : Bool := (indexOf pattern s).isSome

/-- `String.split` at one character: empty pieces at the end are left out, and
a text without the character is its only piece. -/
def split (sep : Char) (s : List Char) : List (List Char) :=
  if sep ∈ s then (s.splitOn sep).rdropWhile (·.isEmpty) else [s]

section IgnoreCase

variable (toUpperCase toLowerCase : Char → Char)

/-- The comparison of two characters in `String.equalsIgnoreCase`. -/
def sameIgnoringCase (c d : Char) : Bool :=
  c = d || toUpperCase c = toUpperCase d ||
    toLowerCase (toUpperCase c) = toLowerCase (toUpperCase d)

/-- `String.equalsIgnoreCase`; no argument stands for `null`. -/
def equalsIgnoreCase (s : List Char) : Option (List Char) → Bool
  | none => false
  | some t => s.length = t.length && (s.zip t).all fun p =>
      sameIgnoringCase toUpperCase toLowerCase p.1 p.2

theorem length_of_equalsIgnoreCase {s t : List Char}
    (h : equalsIgnoreCase toUpperCase toLowerCase s (some t) = true) : s.length = t.length := by
  unfold equalsIgnoreCase at h
  rw [Bool.and_eq_true, decide_eq_true_eq] at h
  exact h.1

end IgnoreCase

theorem contains_iff {s pattern : List Char} :
    contains s pattern = true ↔ pattern <:+: s := by
  unfold contains
  induction s with
  | nil => by_cases h : pattern = [] <;> simp [indexOf, h]
  | cons c s ih =>
      rw [indexOf, List.infix_cons_iff, ← List.isPrefixOf_iff_prefix]
      split_ifs with hhere
      · simp [hhere]
      · simpa [hhere] using ih

theorem contains_singleton {s : List Char} {c : Char} : contains s [c] = true ↔ c ∈ s := by
  rw [contains_iff, List.singleton_infix_iff]

theorem toNat_of_isDigit {c : Char} (hc : isDigit c = true) : 48 ≤ c.toNat := by
  unfold isDigit at hc
  obtain ⟨first, hmem, hfirst⟩ := List.any_eq_true.mp hc
  have hmin : ∀ z ∈ digitZeros, 48 ≤ z := by decide
  simp only [Bool.and_eq_true, decide_eq_true_eq] at hfirst
  exact (hmin first hmem).trans hfirst.1

/-- A trimmed text does not begin with a space or control character. -/
theorem lt_of_head?_trim {s : List Char} {c : Char} (hc : (trim s).head? = some c) :
    32 < c.toNat := by
  have hprefix : trim s <+: s.dropWhile fun c => c.toNat ≤ 32 := List.rdropWhile_prefix _ _
  obtain ⟨rest, hrest⟩ := hprefix
  have hhead : (s.dropWhile fun c => decide (c.toNat ≤ 32)).head? = some c := by
    rw [← hrest, List.head?_append, hc]
    rfl
  have hstop := List.head?_dropWhile_not (fun c : Char => decide (c.toNat ≤ 32)) s
  rw [hhead] at hstop
  simpa using hstop

/-- Nor does it end with one. -/
theorem lt_of_getLast?_trim {s : List Char} {c : Char} (hc : (trim s).getLast? = some c) :
    32 < c.toNat := by
  have hne : trim s ≠ [] := by
    intro hnil
    rw [hnil] at hc
    cases hc
  have hstop := List.rdropWhile_last_not (fun c : Char => decide (c.toNat ≤ 32)) _ hne
  rw [List.getLast?_eq_getLast_of_ne_nil hne, Option.some.injEq] at hc
  rw [← hc]
  simpa [trim] using hstop

/-- A text that begins and ends with visible characters is trimmed already. -/
theorem trim_eq_self {s : List Char} (hfirst : ∀ c, s.head? = some c → 32 < c.toNat)
    (hlast : ∀ c, s.getLast? = some c → 32 < c.toNat) : trim s = s := by
  have hfront : s.dropWhile (fun c => decide (c.toNat ≤ 32)) = s := by
    cases s with
    | nil => rfl
    | cons c s =>
        have hc := hfirst c rfl
        exact List.dropWhile_cons_of_neg (by simpa using hc)
  unfold trim
  rw [hfront, List.rdropWhile_eq_self_iff]
  intro hne
  have hc := hlast _ (List.getLast?_eq_getLast_of_ne_nil hne)
  simpa using hc

/-- Below `'z'` the only digits are the ASCII digits. -/
theorem isDigit_ascii {c : Char} (hc : isDigit c = true) (hlt : c.toNat < 122) :
    c.isDigit = true := by
  unfold isDigit at hc
  obtain ⟨first, hmem, hfirst⟩ := List.any_eq_true.mp hc
  have hzero : ∀ z ∈ digitZeros, z = 48 ∨ 122 ≤ z := by decide
  simp only [Bool.and_eq_true, decide_eq_true_eq] at hfirst
  rcases hzero first hmem with rfl | hlarge
  · rw [Char.isDigit_iff_toNat]
    exact ⟨hfirst.1, Nat.lt_succ_iff.mp hfirst.2⟩
  · omega

/-- ASCII digits are digits. -/
theorem isDigit_of_ascii {c : Char} (hc : c.isDigit = true) : isDigit c = true := by
  rw [Char.isDigit_iff_toNat] at hc
  unfold isDigit
  rw [List.any_eq_true]
  refine ⟨0x30, by decide, ?_⟩
  simp only [Bool.and_eq_true, decide_eq_true_eq]
  exact ⟨hc.1, Nat.lt_succ_of_le hc.2⟩

theorem digit_of_ascii {c : Char} (hc : c.isDigit = true) : digit c = some (c.toNat - 48) := by
  rw [Char.isDigit_iff_toNat] at hc
  change 48 ≤ c.toNat ∧ c.toNat ≤ 57 at hc
  have hlt : c.toNat < 48 + 10 := by omega
  simp [digit, digitZeros, hc.1, hlt]

/-- ASCII digits have their usual value. -/
theorem foldlM_digit {ds : List Char} (hds : ∀ c ∈ ds, c.isDigit = true) (n : Nat) :
    ds.foldlM (fun n c => (digit c).map (n * 10 + ·)) n = some (Nat.ofDigitChars 10 ds n) := by
  induction ds generalizing n with
  | nil => simp
  | cons c ds ih =>
      rw [List.foldlM_cons, digit_of_ascii (hds c (by simp))]
      simp only [Option.map_some, Option.bind_eq_bind, Option.bind_some]
      rw [ih fun d hd => hds d (List.mem_cons_of_mem _ hd), Nat.ofDigitChars_cons,
        Nat.mul_comm 10 n]
      rfl

theorem parseDigits_toDigits (n : Nat) : parseDigits (Nat.toDigits 10 n) = some n := by
  have hvalue := Nat.ofDigitChars_ten_toDigits (n := n)
  have hdigits : ∀ c ∈ Nat.toDigits 10 n, c.isDigit = true :=
    fun c hc => Nat.isDigit_of_mem_toDigits (by decide) (by decide) hc
  cases hds : Nat.toDigits 10 n with
  | nil => exact absurd hds Nat.toDigits_ne_nil
  | cons c ds =>
      rw [hds] at hvalue hdigits
      exact (foldlM_digit hdigits 0).trans (congrArg some hvalue)

/-- An `int` is read back from its decimal notation, the least one too, whose
absolute value is no `int`. -/
theorem parseInt_decimal {n : Int} (hlow : -2 ^ 31 ≤ n) (hhigh : n < 2 ^ 31) :
    parseInt (decimal n) = some n := by
  unfold decimal
  split_ifs with hneg
  · have habs : n.natAbs ≤ 2 ^ 31 := by omega
    simp only [parseInt, parseDigits_toDigits, Option.bind_some, if_pos habs]
    congr 1
    omega
  · have habs : n.natAbs < 2 ^ 31 := by omega
    have hdigits : ∀ c ∈ Nat.toDigits 10 n.natAbs, c.isDigit = true :=
      fun c hc => Nat.isDigit_of_mem_toDigits (by decide) (by decide) hc
    have hparse := parseDigits_toDigits n.natAbs
    unfold parseInt
    split
    · rename_i ds hds
      exact absurd (hdigits '-' (by simp [hds])) (by decide)
    · rename_i ds hds
      exact absurd (hdigits '+' (by simp [hds])) (by decide)
    · rw [hparse, Option.bind_some, if_pos habs]
      congr 1
      omega

end CardScanner
