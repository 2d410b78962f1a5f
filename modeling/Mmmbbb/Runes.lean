import Mathlib.Data.List.Basic
import Mathlib.Data.Nat.Digits.Defs

/-!
# Strings of bytes

A string is any sequence of bytes. Read from the left it is a sequence of
runes: characters in UTF-8, and single bytes where none begins.
-/

set_option autoImplicit false

namespace Runes

abbrev Bytes := List UInt8

def encode (cs : List Char) : Bytes := cs.flatMap String.utf8EncodeChar

def bytes (s : String) : Bytes := encode s.toList

@[simp] theorem encode_nil : encode [] = [] := rfl

@[simp] theorem encode_append (cs ds : List Char) : encode (cs ++ ds) = encode cs ++ encode ds :=
  List.flatMap_append

theorem encode_cons (c : Char) (cs : List Char) :
    encode (c :: cs) = String.utf8EncodeChar c ++ encode cs := List.flatMap_cons

inductive Rune
  | char (c : Char)
  | bad (b : UInt8)
  deriving DecidableEq

def Rune.bytes : Rune → Bytes
  | .char c => String.utf8EncodeChar c
  | .bad b => [b]

def firstChar (bs : Bytes) : Option Char := bs.toByteArray.utf8DecodeChar? 0

def runesFrom : ℕ → Bytes → List Rune
  | _, [] => []
  | skip + 1, _ :: bs => runesFrom skip bs
  | 0, b :: bs =>
    match firstChar (b :: bs) with
    | some c => .char c :: runesFrom (c.utf8Size - 1) bs
    | none => .bad b :: runesFrom 0 bs

def runes (bs : Bytes) : List Rune := runesFrom 0 bs

theorem runesFrom_drop (skip : ℕ) (bs : Bytes) : runesFrom skip bs = runes (bs.drop skip) := by
  induction bs generalizing skip with
  | nil => cases skip <;> simp [runes, runesFrom]
  | cons b bs ih =>
    cases skip with
    | zero => rfl
    | succ skip => rw [runesFrom, ih, List.drop_succ_cons]

theorem firstChar_encode (c : Char) (bs : Bytes) :
    firstChar (String.utf8EncodeChar c ++ bs) = some c := by
  rw [firstChar, List.toByteArray_append]
  exact ByteArray.utf8DecodeChar?_utf8EncodeChar_append

theorem firstChar_some {bs : Bytes} {c : Char} (h : firstChar bs = some c) :
    bs = String.utf8EncodeChar c ++ bs.drop c.utf8Size := by
  obtain ⟨rest, hrest⟩ := ByteArray.exists_of_utf8DecodeChar?_eq_some h
  have hlist : rest.data.toList.toByteArray = rest := by
    apply ByteArray.ext
    simp
  have hbytes : bs = String.utf8EncodeChar c ++ rest.data.toList := by
    apply List.toByteArray_inj.mp
    rw [List.toByteArray_append, hlist]
    exact hrest
  have hdrop : bs.drop c.utf8Size = rest.data.toList := by
    rw [hbytes, ← String.length_utf8EncodeChar c, List.drop_left]
  rw [hdrop]
  exact hbytes

@[simp] theorem runes_nil : runes [] = [] := rfl

theorem runes_char {bs : Bytes} {c : Char} (h : firstChar bs = some c) :
    runes bs = .char c :: runes (bs.drop c.utf8Size) := by
  have hpos := c.utf8Size_pos
  cases bs with
  | nil => cases h
  | cons b bs =>
    have hskip : (b :: bs).drop c.utf8Size = bs.drop (c.utf8Size - 1) := by
      obtain ⟨n, hn⟩ := Nat.exists_eq_succ_of_ne_zero (by omega : c.utf8Size ≠ 0)
      rw [hn, Nat.succ_eq_add_one, List.drop_succ_cons, Nat.add_sub_cancel]
    rw [hskip, ← runesFrom_drop]
    simp only [runes, runesFrom, h]

theorem runes_bad {b : UInt8} {bs : Bytes} (h : firstChar (b :: bs) = none) :
    runes (b :: bs) = .bad b :: runes bs := by
  simp only [runes, runesFrom, h]

theorem bytes_runes (bs : Bytes) : (runes bs).flatMap Rune.bytes = bs := by
  induction hn : bs.length using Nat.strong_induction_on generalizing bs with
  | _ n ih =>
    cases bs with
    | nil => rfl
    | cons b bs =>
      cases hfirst : firstChar (b :: bs) with
      | none =>
        have hrest := ih bs.length (by simp [← hn]) bs rfl
        rw [runes_bad hfirst, List.flatMap_cons, hrest]
        rfl
      | some c =>
        have hpos := c.utf8Size_pos
        have hlen : ((b :: bs).drop c.utf8Size).length < n := by
          rw [← hn, List.length_drop, List.length_cons]
          omega
        have hrest := ih _ hlen ((b :: bs).drop c.utf8Size) rfl
        rw [runes_char hfirst, List.flatMap_cons, hrest]
        exact (firstChar_some hfirst).symm

theorem runes_encode (cs : List Char) : runes (encode cs) = cs.map Rune.char := by
  induction cs with
  | nil => rfl
  | cons c cs ih =>
    rw [encode_cons, runes_char (firstChar_encode c _), ← String.length_utf8EncodeChar c,
      List.drop_left, ih, List.map_cons]

def text (bs : Bytes) : Option (List Char) :=
  (runes bs).mapM (fun r => match r with
    | .char c => some c
    | .bad _ => none)

theorem text_encode (cs : List Char) : text (encode cs) = some cs := by
  rw [text, runes_encode]
  induction cs with
  | nil => rfl
  | cons c cs ih => simp [ih]

end Runes
