import ChartParsing.Text.Literal
import Mathlib.Algebra.Ring.Nat

/-!
# Quoted literals can be read back

Each character of a literal begins where the one before it ends, whatever follows
(`readLiteralChar_literalChar`), so that no two strings have the same literal
(`literal_injective`). A literal ends with its mark and stays on one line.
-/

namespace ChartParsing.Text

variable {mark c : Char} {n width : Nat}

/-- The value of a hexadecimal digit. -/
def hexValue (c : Char) : Nat :=
  if c.toNat < 58 then c.toNat - 48 else c.toNat - 87

/-- The number that hexadecimal digits write. -/
def readHex (cs : List Char) : Nat :=
  cs.foldl (fun n c => 16 * n + hexValue c) 0

theorem hexValue_digitChar : ∀ d < 16, hexValue d.digitChar = d := by decide

theorem digitChar_ne_newline : ∀ d < 16, d.digitChar ≠ '\n' := by decide

theorem readHex_concat (cs : List Char) (c : Char) :
    readHex (cs ++ [c]) = 16 * readHex cs + hexValue c :=
  List.foldl_append

theorem readHex_digitChar (h : n < 16) : readHex [n.digitChar] = n :=
  (Nat.zero_add _).trans (hexValue_digitChar n h)

theorem readHex_toDigits (n : Nat) : readHex (Nat.toDigits 16 n) = n := by
  induction n using Nat.strongRecOn with
  | ind n ih =>
    rw [Nat.toDigits_eq_if (by decide)]
    split
    · rename_i hn
      exact readHex_digitChar hn
    · rename_i hn
      rw [readHex_concat, ih (n / 16) (by omega), hexValue_digitChar _ (Nat.mod_lt n (by decide))]
      exact Nat.div_add_mod n 16

/-- Zeros in front do not change a number. -/
theorem readHex_hexDigits (width n : Nat) : readHex (hexDigits width n) = n := by
  have hzeros : ∀ k, (List.replicate k '0').foldl (fun n c => 16 * n + hexValue c) 0 = 0 := by
    intro k
    induction k with
    | zero => rfl
    | succ k ih => exact ih
  rw [hexDigits, List.leftpad, readHex, List.foldl_append, hzeros]
  exact readHex_toDigits n

theorem length_hexDigits (hwidth : 0 < width) (h : n < 16 ^ width) :
    (hexDigits width n).length = width := by
  rw [hexDigits, List.length_leftpad,
    Nat.max_eq_left ((Nat.length_toDigits_le_iff (by decide) hwidth).2 h)]

theorem newline_not_mem_toDigits (n : Nat) : '\n' ∉ Nat.toDigits 16 n := by
  induction n using Nat.strongRecOn with
  | ind n ih =>
    rw [Nat.toDigits_eq_if (by decide)]
    split
    · rename_i hn
      exact fun h => digitChar_ne_newline n hn (List.mem_singleton.1 h).symm
    · rename_i hn
      rw [List.mem_append, List.mem_singleton, not_or]
      exact ⟨ih (n / 16) (by omega), (digitChar_ne_newline _ (Nat.mod_lt n (by decide))).symm⟩

theorem newline_not_mem_hexDigits (width n : Nat) : '\n' ∉ hexDigits width n := by
  have hzero : '\n' ≠ '0' := by decide
  simp [hexDigits, List.leftpad, hzero, newline_not_mem_toDigits n]

/-- The character in front of a text that is written as in a literal, and the rest. -/
def readLiteralChar : List Char → Option (Char × List Char)
  | '\\' :: 'n' :: rest => some ('\n', rest)
  | '\\' :: 'r' :: rest => some ('\r', rest)
  | '\\' :: 't' :: rest => some ('\t', rest)
  | '\\' :: 'x' :: rest => some (Char.ofNat (readHex (rest.take 2)), rest.drop 2)
  | '\\' :: 'u' :: rest => some (Char.ofNat (readHex (rest.take 4)), rest.drop 4)
  | '\\' :: 'U' :: rest => some (Char.ofNat (readHex (rest.take 8)), rest.drop 8)
  | '\\' :: c :: rest => some (c, rest)
  | c :: rest => some (c, rest)
  | [] => none

theorem readLiteralChar_of_ne (h : c ≠ '\\') (rest : List Char) :
    readLiteralChar (c :: rest) = some (c, rest) := by
  unfold readLiteralChar
  split <;> simp_all

/-- A code point is read off its digits. -/
theorem readLiteralChar_codePointEscape (c : Char) (rest : List Char) :
    readLiteralChar (codePointEscape c.toNat ++ rest) = some (c, rest) := by
  have hdigits : ∀ width, 0 < width → c.toNat < 16 ^ width →
      (Char.ofNat (readHex ((hexDigits width c.toNat ++ rest).take width)),
        (hexDigits width c.toNat ++ rest).drop width) = (c, rest) := by
    intro width hwidth hc
    have hlength := length_hexDigits hwidth hc
    rw [List.take_left' hlength, List.drop_left' hlength, readHex_hexDigits, Char.ofNat_toNat]
  unfold codePointEscape
  split
  · rename_i hc
    exact congrArg some (hdigits 2 (by decide) hc)
  · split
    · rename_i hc
      exact congrArg some (hdigits 4 (by decide) hc)
    · refine congrArg some (hdigits 8 (by decide) ?_)
      have hvalid : c.toNat < 0xd800 ∨ 0xdfff < c.toNat ∧ c.toNat < 0x110000 := c.valid
      omega

/-- Whatever follows a character of a literal, the character is read off the front. -/
theorem readLiteralChar_literalChar (hmark : mark = '\'' ∨ mark = '"') (c : Char)
    (rest : List Char) : readLiteralChar (literalChar mark c ++ rest) = some (c, rest) := by
  unfold literalChar
  split
  · rename_i hc
    obtain rfl | rfl := hmark <;> obtain rfl | rfl := hc <;> rfl
  · rename_i hc
    split
    · rename_i hline
      rw [hline]
      rfl
    · split
      · rename_i hreturn
        rw [hreturn]
        rfl
      · split
        · rename_i htab
          rw [htab]
          rfl
        · split
          · exact readLiteralChar_of_ne (not_or.1 hc).2 rest
          · exact readLiteralChar_codePointEscape c rest

/-- Characters are told from what a literal has for them. -/
theorem flatMap_literalChar_inj (hmark : mark = '\'' ∨ mark = '"') {cs ds : List Char}
    (h : cs.flatMap (literalChar mark) = ds.flatMap (literalChar mark)) : cs = ds := by
  induction cs generalizing ds with
  | nil =>
    cases ds with
    | nil => rfl
    | cons d ds =>
      have hread := congrArg readLiteralChar h
      rw [List.flatMap_cons, readLiteralChar_literalChar hmark] at hread
      cases hread
  | cons c cs ih =>
    have hread := congrArg readLiteralChar h
    rw [List.flatMap_cons, readLiteralChar_literalChar hmark] at hread
    cases ds with
    | nil => cases hread
    | cons d ds =>
      rw [List.flatMap_cons, readLiteralChar_literalChar hmark] at hread
      obtain ⟨rfl, hrest⟩ := Prod.mk.inj (Option.some.inj hread)
      rw [ih hrest]

theorem literal_injective : Function.Injective literal := by
  intro s s' h
  have hchars : literalChars s.toList = literalChars s'.toList := by
    simpa [literal] using congrArg String.toList h
  unfold literalChars at hchars
  rw [List.cons_append, List.cons_append] at hchars
  obtain ⟨hmark, hbody⟩ := List.cons.inj hchars
  rw [← hmark] at hbody
  exact String.toList_inj.1
    (flatMap_literalChar_inj (literalMark_eq _) (List.append_cancel_right hbody))

theorem getLast?_toList_literal (s : String) :
    (literal s).toList.getLast? = some (literalMark s.toList) := by
  rw [literal, String.toList_ofList, literalChars, List.getLast?_concat]

theorem newline_not_mem_codePointEscape (n : Nat) : '\n' ∉ codePointEscape n := by
  unfold codePointEscape
  split
  · simp [newline_not_mem_hexDigits]
  · split <;> simp [newline_not_mem_hexDigits]

theorem newline_not_mem_literalChar (hmark : mark = '\'' ∨ mark = '"') (c : Char) :
    '\n' ∉ literalChar mark c := by
  unfold literalChar
  split
  · rename_i hc
    obtain rfl | rfl := hmark <;> obtain rfl | rfl := hc <;> decide
  · split
    · decide
    · rename_i hline
      split
      · decide
      · split
        · decide
        · split
          · exact fun h => hline (List.mem_singleton.1 h).symm
          · exact newline_not_mem_codePointEscape _

/-- A literal stays on one line. -/
theorem newline_not_mem_literal (s : String) : '\n' ∉ (literal s).toList := by
  have hmark := literalMark_eq s.toList
  have hline : '\n' ≠ literalMark s.toList := by
    rcases hmark with h | h <;> rw [h] <;> decide
  simp [literal, literalChars, hline, newline_not_mem_literalChar hmark]

end ChartParsing.Text
