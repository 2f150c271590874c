import Mathlib.Tactic.SplitIfs
import MessageKeys.Json.Token

/-! # Quoted texts are read back

    A character is written in one of three ways: as itself, as a backslash and
    a letter, or by its code, which is below 32 then.  Each way is undone when the escapes are
    (`pieces?_escape`), and none of them ends the quotes it stands in (`scanFrom_escape`).  So
    a quoted text is one token, and it stands for the text it was written for
    (`scanFrom_quoted`, `decode?_encode`). -/

namespace MessageKeys.Json

namespace Quoted

/-- The ways to write a character. -/
inductive Written (c : Char) : List Char → Prop where
  | plain : c ≠ '"' → c ≠ '\\' → ¬ c.toNat < 32 → Written c [c]
  | short {e : Char} : e ≠ 'u' → shortEscape? e = some c → Written c ['\\', e]
  | code : c.toNat < 32 →
      Written c ['\\', 'u', '0', '0', hexDigit (c.toNat / 16), hexDigit (c.toNat % 16)]

/-- A character is written in one of these ways. -/
theorem written_escape (c : Char) : Written c (escape c) := by
  have hshort : ∀ d e, e ≠ 'u' → shortEscape? e = some d → c = d → Written c ['\\', e] := by
    rintro d e hu he rfl
    exact .short hu he
  rw [escape]
  split_ifs with hquote hslash hb hf hn hr ht hcode
  · exact hshort '"' '"' (by decide) rfl hquote
  · exact hshort '\\' '\\' (by decide) rfl hslash
  · exact hshort '\x08' 'b' (by decide) rfl hb
  · exact hshort '\x0c' 'f' (by decide) rfl hf
  · exact hshort '\n' 'n' (by decide) rfl hn
  · exact hshort '\r' 'r' (by decide) rfl hr
  · exact hshort '\t' 't' (by decide) rfl ht
  · exact .code hcode
  · exact .plain hquote hslash hcode

/-! ## Undoing escapes -/

theorem hexValue?_hexDigit {n : Nat} (h : n < 16) : hexValue? (hexDigit n) = some n := by
  have hall : ∀ n < 16, hexValue? (hexDigit n) = some n := by decide
  exact hall n h

/-- The code of a control character is read as that character. -/
theorem ofCode_toNat {c : Char} (h : c.toNat < 32) : Piece.ofCode c.toNat = .char c := by
  have hnone : ¬ (isHighHalf c.toNat = true ∨ isLowHalf c.toNat = true) := by
    simp only [isHighHalf, isLowHalf, decide_eq_true_eq]
    omega
  rw [Piece.ofCode, if_neg hnone, Char.ofNat_toNat]

/-- **ESCAPES**: a written character is read as itself. -/
theorem pieces?_escape (c : Char) (rest : List Char) :
    pieces? (escape c ++ rest) = (pieces? rest).map (.char c :: ·) := by
  generalize he : escape c = cs
  have hwritten : Written c cs := he ▸ written_escape c
  cases hwritten with
  | plain _ hslash hcode =>
      rw [List.singleton_append, pieces?, if_neg (by simp [hslash, hcode])]
      · intro a b d e more hc
        exact absurd hc hslash
      · intro a more hc
        exact absurd hc hslash
  | @short e hu hshort =>
      rw [List.cons_append, List.singleton_append, pieces?, hshort]
      intro a b d e more hc
      exact absurd hc hu
  | code hcode =>
      have hhigh : c.toNat / 16 < 16 := by omega
      have hlow : c.toNat % 16 < 16 := by omega
      have hzero : hexValue? '0' = some 0 := by decide
      have hvalue : ((0 * 16 + 0) * 16 + c.toNat / 16) * 16 + c.toNat % 16 = c.toNat := by omega
      simp only [List.cons_append, List.nil_append]
      rw [pieces?, code?, hexValue?_hexDigit hhigh, hexValue?_hexDigit hlow, hzero]
      dsimp only
      rw [hvalue, ofCode_toNat hcode]

theorem pieces?_encode (cs : List Char) : pieces? (encode cs) = some (cs.map .char) := by
  induction cs with
  | nil => rfl
  | cons c cs ih =>
      have hencode : encode (c :: cs) = escape c ++ encode cs := rfl
      rw [hencode, pieces?_escape, ih]
      rfl

theorem joinPieces?_chars (cs : List Char) : joinPieces? (cs.map .char) = some cs := by
  induction cs with
  | nil => rfl
  | cons c cs ih =>
      rw [List.map_cons, joinPieces?, ih]
      rfl

/-- **QUOTED TEXTS**: what is written stands for the text. -/
theorem decode?_encode (cs : List Char) : decode? (encode cs) = some cs := by
  rw [decode?, pieces?_encode, Option.bind_some, joinPieces?_chars]

end Quoted

/-! ## Quoted texts as tokens -/

namespace Token

open Quoted

/-- A character of a quoted text that is neither the quote nor a backslash goes into it. -/
theorem scanFrom_plain {c : Char} (hquote : c ≠ '"') (hslash : c ≠ '\\') (before rest : List Char) :
    scanFrom (.quoted before) (c :: rest) = scanFrom (.quoted (c :: before)) rest := by
  rw [scanFrom, if_neg hquote]
  intro d more hc
  exact absurd hc hslash

theorem hexDigit_ne {n : Nat} (h : n < 16) : hexDigit n ≠ '"' ∧ hexDigit n ≠ '\\' := by
  have hall : ∀ n < 16, hexDigit n ≠ '"' ∧ hexDigit n ≠ '\\' := by decide
  exact hall n h

/-- **WRITTEN CHARACTERS** stay inside of the quotes. -/
theorem scanFrom_escape (c : Char) (before rest : List Char) :
    scanFrom (.quoted before) (escape c ++ rest)
      = scanFrom (.quoted ((escape c).reverse ++ before)) rest := by
  generalize he : escape c = cs
  have hwritten : Written c cs := he ▸ written_escape c
  cases hwritten with
  | plain hquote hslash _ => exact scanFrom_plain hquote hslash before rest
  | short => rfl
  | code hcode =>
      have hhigh := hexDigit_ne (n := c.toNat / 16) (by omega)
      have hlow := hexDigit_ne (n := c.toNat % 16) (by omega)
      -- the backslash takes the letter with it, the four digits stand for themselves
      have hletter : ∀ more, scanFrom (.quoted before) ('\\' :: 'u' :: more)
          = scanFrom (.quoted ('u' :: '\\' :: before)) more := fun _ => rfl
      simp only [List.cons_append, List.nil_append]
      rw [hletter, scanFrom_plain (by decide) (by decide), scanFrom_plain (by decide) (by decide),
        scanFrom_plain hhigh.1 hhigh.2, scanFrom_plain hlow.1 hlow.2]
      rfl

theorem scanFrom_encode (cs before rest : List Char) :
    scanFrom (.quoted before) (encode cs ++ rest)
      = scanFrom (.quoted ((encode cs).reverse ++ before)) rest := by
  induction cs generalizing before with
  | nil => rfl
  | cons c cs ih =>
      have hencode : encode (c :: cs) = escape c ++ encode cs := rfl
      rw [hencode, List.append_assoc, scanFrom_escape, ih, List.reverse_append, List.append_assoc]

/-- **TOKENS**: a text in quotes is one token. -/
theorem scanFrom_quoted (cs rest : List Char) :
    scanFrom .between ('"' :: (encode cs ++ '"' :: rest))
      = (scanFrom .between rest).map (quoted (encode cs) :: ·) := by
  have hopen : ∀ more, scanFrom .between ('"' :: more) = scanFrom (.quoted []) more := by
    intro more
    show (scanFrom (.quoted []) more).map ([] ++ ·) = _
    exact Option.map_id'
  have hclose : ∀ before, scanFrom (.quoted before) ('"' :: rest)
      = (scanFrom .between rest).map (quoted before.reverse :: ·) := by
    intro before
    rw [scanFrom, if_pos rfl]
    intro d more hc
    cases hc
  rw [hopen, scanFrom_encode, hclose, List.append_nil, List.reverse_reverse]

end Token

end MessageKeys.Json
