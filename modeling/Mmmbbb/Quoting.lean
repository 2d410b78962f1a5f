import Mmmbbb.Runes

/-!
# Quoted strings

A string of bytes is written between double quotes with the escapes of Go, and
read back character by character. Which characters are letters, digits or
printable is left to tables, of which only the ASCII part is given.
-/

set_option autoImplicit false

namespace Quoting
open Runes

def replacementChar : Char := Char.ofNat 0xFFFD

structure Unicode where
  isLetter : Char → Bool
  isDigit : Char → Bool
  isPrint : Char → Bool
  letter_ascii : ∀ c, c.toNat < 128 → isLetter c = c.isAlpha
  digit_ascii : ∀ c, c.toNat < 128 → isDigit c = c.isDigit
  print_ascii : ∀ c, c.toNat < 128 → isPrint c = decide (32 ≤ c.toNat ∧ c.toNat < 127)
  letter_replacement : isLetter replacementChar = false
  digit_replacement : isDigit replacementChar = false

def ascii : Unicode where
  isLetter := Char.isAlpha
  isDigit := Char.isDigit
  isPrint c := decide (32 ≤ c.toNat ∧ c.toNat < 127)
  letter_ascii _ _ := rfl
  digit_ascii _ _ := rfl
  print_ascii _ _ := rfl
  letter_replacement := by decide
  digit_replacement := by decide

def hexDigit (d : ℕ) : Char := "0123456789abcdef".toList.getD d '0'

def hex : ℕ → ℕ → List Char
  | 0, _ => []
  | k + 1, n => hex k (n / 16) ++ [hexDigit (n % 16)]

def escapes : List (Char × ℕ) :=
  [('a', 7), ('b', 8), ('f', 12), ('n', 10), ('r', 13), ('t', 9), ('v', 11)]

def quoteRune (u : Unicode) : Rune → List Char
  | .bad b => '\\' :: 'x' :: hex 2 b.toNat
  | .char c =>
    if c = '"' ∨ c = '\\' then ['\\', c]
    else if u.isPrint c then [c]
    else
      match escapes.find? (fun e => e.2 = c.toNat) with
      | some e => ['\\', e.1]
      | none =>
        if c.toNat < 32 ∨ c.toNat = 127 then '\\' :: 'x' :: hex 2 c.toNat
        else if c.toNat < 0x10000 then '\\' :: 'u' :: hex 4 c.toNat
        else '\\' :: 'U' :: hex 8 c.toNat

def quote (u : Unicode) (bs : Bytes) : List Char :=
  '"' :: (runes bs).flatMap (quoteRune u) ++ ['"']

def digitVal (c : Char) : ℕ :=
  if '0' ≤ c ∧ c ≤ '9' then c.toNat - '0'.toNat
  else if 'a' ≤ c ∧ c ≤ 'f' then c.toNat - 'a'.toNat + 10
  else if 'A' ≤ c ∧ c ≤ 'F' then c.toNat - 'A'.toNat + 10
  else 16

/-- Where the reader is: between characters, after a backslash, or with so many
digits of an escape still to come. -/
inductive Place
  | plain
  | escape
  | digits (base left value : ℕ) (multibyte : Bool)
  deriving DecidableEq

def finish (value : ℕ) (multibyte : Bool) : Option (Bytes × Place) :=
  if multibyte then
    if value.isValidChar then some (String.utf8EncodeChar (Char.ofNat value), .plain) else none
  else if value < 256 then some ([UInt8.ofNat value], .plain)
  else none

def readDigit (base left value : ℕ) (multibyte : Bool) (c : Char) : Option (Bytes × Place) :=
  if digitVal c < base then
    let value := value * base + digitVal c
    if left = 1 then finish value multibyte else some ([], .digits base (left - 1) value multibyte)
  else none

def readEscape (c : Char) : Option (Bytes × Place) :=
  match escapes.lookup c with
  | some b => some ([UInt8.ofNat b], .plain)
  | none =>
    if c = '\\' ∨ c = '"' then some (String.utf8EncodeChar c, .plain)
    else if c = 'x' then some ([], .digits 16 2 0 false)
    else if c = 'u' then some ([], .digits 16 4 0 true)
    else if c = 'U' then some ([], .digits 16 8 0 true)
    else readDigit 8 3 0 false c

def readChar : Place → Char → Option (Bytes × Place)
  | .plain, c =>
    if c = '\\' then some ([], .escape)
    else if c = '\n' ∨ c = '"' then none
    else some (String.utf8EncodeChar c, .plain)
  | .escape, c => readEscape c
  | .digits base left value multibyte, c => readDigit base left value multibyte c

def read : Place → List Char → Option (Bytes × Place)
  | p, [] => some ([], p)
  | p, c :: cs => do
    let (b, q) ← readChar p c
    let (bs, r) ← read q cs
    pure (b ++ bs, r)

theorem read_cons {p q r : Place} {c : Char} {cs : List Char} {b bs : Bytes}
    (h : readChar p c = some (b, q)) (h' : read q cs = some (bs, r)) :
    read p (c :: cs) = some (b ++ bs, r) := by
  rw [read, h]
  change (read q cs).bind _ = _
  rw [h']
  rfl

theorem read_cons_some {p r : Place} {c : Char} {cs : List Char} {b : Bytes}
    (h : read p (c :: cs) = some (b, r)) :
    ∃ x q y, readChar p c = some (x, q) ∧ read q cs = some (y, r) ∧ x ++ y = b := by
  rw [read] at h
  cases hc : readChar p c with
  | none => simp [hc] at h
  | some x =>
    cases hcs : read x.2 cs with
    | none => simp [hc, hcs] at h
    | some y =>
      simp only [hc, hcs, Option.bind_eq_bind, Option.bind_some, Option.pure_def,
        Option.some.injEq, Prod.mk.injEq] at h
      obtain ⟨hb, rfl⟩ := h
      exact ⟨x.1, x.2, y.1, rfl, hcs, hb⟩

theorem read_append {p q r : Place} {cs ds : List Char} {b bs : Bytes}
    (h : read p cs = some (b, q)) (h' : read q ds = some (bs, r)) :
    read p (cs ++ ds) = some (b ++ bs, r) := by
  induction cs generalizing p b with
  | nil =>
    cases h
    exact h'
  | cons c cs ih =>
    obtain ⟨x, p', y, hc, hcs, rfl⟩ := read_cons_some h
    rw [List.cons_append, read_cons hc (ih hcs), List.append_assoc]

theorem digitVal_hexDigit {d : ℕ} (h : d < 16) : digitVal (hexDigit d) = d := by
  have hall : ∀ d < 16, digitVal (hexDigit d) = d := by decide
  exact hall d h

theorem readDigit_more {left value d : ℕ} (multibyte : Bool) (hd : d < 16) :
    readDigit 16 (left + 2) value multibyte (hexDigit d) =
      some ([], .digits 16 (left + 1) (value * 16 + d) multibyte) := by
  simp [readDigit, digitVal_hexDigit hd, hd]

theorem readDigit_last {value d : ℕ} (multibyte : Bool) (hd : d < 16) :
    readDigit 16 1 value multibyte (hexDigit d) = finish (value * 16 + d) multibyte := by
  simp [readDigit, digitVal_hexDigit hd, hd]

theorem read_hex_start (multibyte : Bool) (k n left value : ℕ) (hn : n < 16 ^ k) :
    read (.digits 16 (k + left + 1) value multibyte) (hex k n) =
      some ([], .digits 16 (left + 1) (value * 16 ^ k + n) multibyte) := by
  induction k generalizing n left with
  | zero =>
    have hzero : n = 0 := by simpa using hn
    simp [hex, read, hzero]
  | succ k ih =>
    have hdigit : n % 16 < 16 := Nat.mod_lt n (by decide)
    have hstart := ih (n / 16) (left + 1) (by rw [pow_succ] at hn; omega)
    have hmore : readChar (.digits 16 (left + 2) (value * 16 ^ k + n / 16) multibyte)
        (hexDigit (n % 16)) = _ := readDigit_more multibyte hdigit
    have hlast := read_cons hmore (read.eq_1 _)
    have hvalue : (value * 16 ^ k + n / 16) * 16 + n % 16 = value * 16 ^ (k + 1) + n := by
      rw [pow_succ, ← Nat.mul_assoc]
      omega
    rw [hvalue] at hlast
    have hplaces : k + 1 + left + 1 = k + (left + 1) + 1 := by omega
    rw [hex, hplaces]
    exact read_append hstart hlast

theorem read_hex {multibyte : Bool} {k n : ℕ} {b : Bytes} {p : Place} (hn : n < 16 ^ (k + 1))
    (hfinish : finish n multibyte = some (b, p)) :
    read (.digits 16 (k + 1) 0 multibyte) (hex (k + 1) n) = some (b, p) := by
  have hdigit : n % 16 < 16 := Nat.mod_lt n (by decide)
  have hstart := read_hex_start multibyte k (n / 16) 0 0 (by rw [pow_succ] at hn; omega)
  have hvalue : (0 * 16 ^ k + n / 16) * 16 + n % 16 = n := by omega
  have hlast : readChar (.digits 16 1 (0 * 16 ^ k + n / 16) multibyte) (hexDigit (n % 16)) =
      some (b, p) := by
    rw [readChar, readDigit_last multibyte hdigit, hvalue, hfinish]
  have hread := read_append hstart (read_cons hlast (read.eq_1 p))
  rw [List.nil_append, List.append_nil] at hread
  exact hread

theorem encode_ascii {c : Char} (h : c.toNat < 128) :
    String.utf8EncodeChar c = [UInt8.ofNat c.toNat] := by
  have hsize : c.utf8Size = 1 := by
    rw [Char.utf8Size_eq_one_iff]
    have hval : c.val.toNat ≤ 127 := Nat.le_of_lt_succ h
    exact hval
  rw [String.utf8EncodeChar_eq_singleton hsize]
  rfl

section
variable {p q : Place} {c d : Char} {cs : List Char} {b : Bytes}

theorem read_escape (h : readEscape c = some ([], q)) (h' : read q cs = some (b, p)) :
    read .plain ('\\' :: c :: cs) = some (b, p) := by
  have hslash : readChar .plain '\\' = some ([], .escape) := rfl
  exact read_cons hslash (read_cons (p := .escape) h h')

theorem read_escape_one (h : readEscape c = some (b, .plain)) :
    read .plain ['\\', c] = some (b, .plain) := by
  have hslash : readChar .plain '\\' = some ([], .escape) := rfl
  have hread := read_cons hslash (read_cons (p := .escape) h (read.eq_1 .plain))
  rw [List.nil_append, List.append_nil] at hread
  exact hread

end

theorem readEscape_escapes {e : Char × ℕ} (h : e ∈ escapes) :
    readEscape e.1 = some ([UInt8.ofNat e.2], .plain) := by
  have hall : ∀ e ∈ escapes, escapes.lookup e.1 = some e.2 := by decide
  simp only [readEscape, hall e h]

theorem read_quoteRune (u : Unicode) (r : Rune) :
    read .plain (quoteRune u r) = some (r.bytes, .plain) := by
  cases r with
  | bad b =>
    have hbyte : finish b.toNat false = some ([b], .plain) := by
      simp [finish, b.toNat_lt_size]
    exact read_escape rfl (read_hex (k := 1) (by have := b.toNat_lt_size; omega) hbyte)
  | char c =>
    have hlow : c.toNat < 128 → finish c.toNat false = some (String.utf8EncodeChar c, .plain) := by
      intro h
      have hbyte : c.toNat < 256 := by omega
      simp [finish, encode_ascii h, hbyte]
    have hhigh : finish c.toNat true = some (String.utf8EncodeChar c, .plain) := by
      have hvalid : c.toNat.isValidChar := c.valid
      simp [finish, hvalid]
    have hmax : c.toNat < 0x110000 := by
      have hvalid : c.toNat.isValidChar := c.valid
      rcases hvalid with h | h <;> omega
    simp only [quoteRune, Rune.bytes]
    split
    · rename_i hq
      apply read_escape_one
      rcases hq with rfl | rfl <;> rfl
    · rename_i hq
      rw [not_or] at hq
      split
      · rename_i hprint
        have hline : c ≠ '\n' := by
          rintro rfl
          rw [u.print_ascii _ (by decide)] at hprint
          simp at hprint
        have hchar : readChar .plain c = some (String.utf8EncodeChar c, .plain) := by
          simp [readChar, hq.1, hq.2, hline]
        have hread := read_cons hchar (read.eq_1 .plain)
        rw [List.append_nil] at hread
        exact hread
      · split
        · rename_i e he
          have hmem := List.mem_of_find?_eq_some he
          have hval : e.2 = c.toNat := by simpa using List.find?_some he
          have hsmall : ∀ e ∈ escapes, e.2 < 128 := by decide
          rw [read_escape_one (readEscape_escapes hmem), hval,
            encode_ascii (hval ▸ hsmall e hmem)]
        · split
          · rename_i hctrl
            exact read_escape rfl (read_hex (k := 1) (by omega) (hlow (by omega)))
          · split
            · rename_i hshort
              exact read_escape rfl (read_hex (k := 3) (by omega) hhigh)
            · exact read_escape rfl (read_hex (k := 7) (by omega) hhigh)

theorem read_quote (u : Unicode) (bs : Bytes) :
    read .plain ((runes bs).flatMap (quoteRune u)) = some (bs, .plain) := by
  have hall : ∀ rs : List Rune,
      read .plain (rs.flatMap (quoteRune u)) = some (rs.flatMap Rune.bytes, .plain) := by
    intro rs
    induction rs with
    | nil => rfl
    | cons r rs ih => exact read_append (read_quoteRune u r) ih
  rw [hall, bytes_runes]

theorem hex_no_zero (k n : ℕ) : '\x00' ∉ hex k n := by
  induction k generalizing n with
  | zero => simp [hex]
  | succ k ih =>
    have hdigit : ∀ d < 16, hexDigit d ≠ '\x00' := by decide
    have hlast := hdigit (n % 16) (Nat.mod_lt n (by decide))
    rw [hex, List.mem_append, List.mem_singleton, not_or]
    exact ⟨ih (n / 16), hlast.symm⟩

theorem quoteRune_no_zero (u : Unicode) (r : Rune) : '\x00' ∉ quoteRune u r := by
  cases r with
  | bad b => simp [quoteRune, hex_no_zero]
  | char c =>
    simp only [quoteRune]
    split
    · rename_i hq
      rcases hq with rfl | rfl <;> simp
    · split
      · rename_i hprint
        rw [List.mem_singleton]
        rintro rfl
        rw [u.print_ascii _ (by decide)] at hprint
        simp at hprint
      · split
        · rename_i e he
          have hletter : ∀ e ∈ escapes, e.1 ≠ '\x00' := by decide
          have hne := hletter e (List.mem_of_find?_eq_some he)
          simp [hne.symm]
        · split
          · simp [hex_no_zero]
          · split <;> simp [hex_no_zero]

theorem quote_no_zero (u : Unicode) (bs : Bytes) : '\x00' ∉ quote u bs := by
  have hbody : '\x00' ∉ (runes bs).flatMap (quoteRune u) := by
    rw [List.mem_flatMap]
    rintro ⟨r, -, hr⟩
    exact quoteRune_no_zero u r hr
  simp [quote, hbody]

end Quoting
