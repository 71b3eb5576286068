/-
# The lexical grammar of MySQL

Texts are read as MySQL reads them, with the default SQL mode: blanks and comments, single and double
quoted strings with doubled quotes and backslash escapes, quoted identifiers, words, integers, single
characters.  Other numbers are not read.

`weight` measures texts and tokens.  It does not grow from a text to its tokens (`lex_weight`), and a
string that cannot stand between single quotes as it is weighs more than its characters and the quotes.
So in a text that weighs no more than necessary every string is written as it is.
-/
import Mathlib.Data.List.Basic
import Mathlib.Data.List.TakeWhile
import Mathlib.Algebra.Order.Ring.Nat
import Mathlib.Tactic.Common

namespace Mysql

/-! ## Characters -/

/-- The single quote. -/
def quote : Char := '\x27'

/-- The double quote. -/
def doubleQuote : Char := '\x22'

/-- The quote of identifiers. -/
def backtick : Char := '\x60'

/-- The blanks of MySQL. -/
def isSpace (c : Char) : Bool :=
  c == ' ' || c == '\t' || c == '\n' || c == '\r' || c == '\x0b' || c == '\x0c'

/-- The characters of unquoted identifiers. -/
def isIdentChar (c : Char) : Bool :=
  c.isAlphanum || c == '_' || c == '$' || (0x80 ≤ c.toNat && c.toNat ≤ 0xffff)

/-- The characters that a backslash and `c` stand for in a string.  The two patterns of `LIKE` keep
their backslash. -/
def escape (c : Char) : List Char :=
  if c = '0' then ['\x00'] else if c = 'b' then ['\x08'] else if c = 'n' then ['\n']
  else if c = 'r' then ['\r'] else if c = 't' then ['\t'] else if c = 'Z' then ['\x1a']
  else if c = '%' then ['\\', '%'] else if c = '_' then ['\\', '_'] else [c]

/-! ## Tokens -/

/-- The tokens of a statement. -/
inductive Token where
  | word (w : List Char)
  | quotedWord (w : List Char)
  | num (ds : List Char)
  | str (s : List Char)
  | null
  | sym (c : Char)
  deriving DecidableEq, Repr

/-- The rest of a string whose opening quote `q` has been read: its characters, and what follows the
closing quote. -/
def scan (q : Char) : List Char → Option (List Char × List Char)
  | [] => none
  | [c] => if c = q then some ([], []) else none
  | c :: d :: cs =>
      if c = q then
        if d = q then (scan q cs).map fun p => (q :: p.1, p.2) else some ([], d :: cs)
      else if c = '\\' then (scan q cs).map fun p => (escape d ++ p.1, p.2)
      else (scan q (d :: cs)).map fun p => (c :: p.1, p.2)

/-- The rest of a quoted identifier. -/
def scanIdent : List Char → Option (List Char × List Char)
  | [] => none
  | [c] => if c = backtick then some ([], []) else none
  | c :: d :: cs =>
      if c = backtick then
        if d = backtick then (scanIdent cs).map fun p => (backtick :: p.1, p.2) else some ([], d :: cs)
      else (scanIdent (d :: cs)).map fun p => (c :: p.1, p.2)

/-- What follows the end of a comment of the form `/* ... */`. -/
def afterBlock : List Char → Option (List Char)
  | '*' :: '/' :: cs => some cs
  | _ :: cs => afterBlock cs
  | [] => none

/-- What follows a comment, if the text starts with one.  Two dashes need a blank after them, and
`/*!` starts code and no comment. -/
def afterComment : List Char → Option (List Char)
  | '#' :: cs => some (cs.dropWhile (· ≠ '\n'))
  | '-' :: '-' :: cs => if cs.head?.all isSpace then some (cs.dropWhile (· ≠ '\n')) else none
  | '/' :: '*' :: cs => if cs.head? = some '!' then none else afterBlock cs
  | _ => none

/-- A word that starts with a digit and is a number other than a decimal integer: hexadecimal, binary
or with an exponent.  The exponent's sign stands after the word. -/
def isNumeral (w rest : List Char) : Bool :=
  match w with
  | '0' :: 'x' :: ds => !ds.isEmpty && ds.all fun c => c.isDigit || ('a' ≤ c && c ≤ 'f') || ('A' ≤ c && c ≤ 'F')
  | '0' :: 'b' :: ds => !ds.isEmpty && ds.all fun c => c == '0' || c == '1'
  | c :: _ =>
      c.isDigit && match w.dropWhile Char.isDigit, rest with
        | [e], s :: d :: _ => (e == 'e' || e == 'E') && (s == '+' || s == '-') && d.isDigit
        | e :: d :: _, _ => (e == 'e' || e == 'E') && d.isDigit
        | _, _ => false
  | [] => false

/-- The token that a maximal run of identifier characters is. -/
def wordToken (w rest : List Char) : Option Token :=
  if w.all Char.isDigit then some (.num w) else if isNumeral w rest then none else some (.word w)

/-- Outside of a string a backslash and `N` are `NULL`. -/
def nullToken : List Char → Option (List Char)
  | 'N' :: rest => some rest
  | _ => none

/-- The first token of a text, or none for a blank or a comment, and the rest of the text. -/
def next : List Char → Option (Option Token × List Char)
  | [] => none
  | c :: tail =>
      if isSpace c then some (none, tail)
      else match afterComment (c :: tail) with
        | some rest => some (none, rest)
        | none =>
            if c = quote ∨ c = doubleQuote then (scan c tail).map fun p => (some (.str p.1), p.2)
            else if c = backtick then (scanIdent tail).map fun p => (some (.quotedWord p.1), p.2)
            else if isIdentChar c then
              (wordToken ((c :: tail).takeWhile isIdentChar) ((c :: tail).dropWhile isIdentChar)).map
                fun t => (some t, (c :: tail).dropWhile isIdentChar)
            else if c = '\\' then (nullToken tail).map fun rest => (some .null, rest)
            else some (some (.sym c), tail)

/-- The tokens of a text, with a bound on the number of steps. -/
def tokens : ℕ → List Char → Option (List Token)
  | _, [] => some []
  | 0, _ :: _ => none
  | n + 1, c :: cs => (next (c :: cs)).bind fun p => (tokens n p.2).map (p.1.toList ++ ·)

/-- The tokens of a text. -/
def lex (cs : List Char) : Option (List Token) := tokens cs.length cs

/-! ## Weights -/

/-- A blank weighs nothing, so it does not matter how tokens are set apart.  A double quote weighs
two, so that a double quoted string is heavier than the same characters between single quotes. -/
def charWeight (c : Char) : ℕ := if c = ' ' then 0 else if c = doubleQuote then 2 else 1

/-- The length of a text once it is escaped. -/
def weight (cs : List Char) : ℕ := (cs.map charWeight).sum

@[simp] theorem weight_nil : weight [] = 0 := rfl

@[simp] theorem weight_cons (c : Char) (cs : List Char) : weight (c :: cs) = charWeight c + weight cs := by
  simp [weight]

@[simp] theorem weight_append (cs ds : List Char) : weight (cs ++ ds) = weight cs + weight ds := by
  simp [weight]

/-- The weight of several texts. -/
theorem weight_flatten (l : List (List Char)) : weight l.flatten = (l.map weight).sum := by
  induction l with
  | nil => rfl
  | cons cs l ih => rw [List.flatten_cons, weight_append, ih, List.map_cons, List.sum_cons]

/-- Anything but a blank weighs something. -/
theorem one_le_charWeight {c : Char} (h : c ≠ ' ') : 1 ≤ charWeight c := by
  unfold charWeight
  rw [if_neg h]
  split <;> omega

/-- A string that means itself between single quotes: no quote in it, and every backslash followed by
one of the patterns of `LIKE`. -/
def verbatim : List Char → Bool
  | [] => true
  | [c] => c ≠ quote && c ≠ '\\'
  | c :: d :: cs =>
      if c = quote then false
      else if c = '\\' then (d == '%' || d == '_') && verbatim cs
      else verbatim (d :: cs)

/-- The least weight of a string as a token: its quotes, and one more if it cannot be written as it
is. -/
def strWeight (s : List Char) : ℕ := weight s + 2 + if verbatim s then 0 else 1

/-- A character that needs no care. -/
theorem verbatim_cons {c : Char} (hq : c ≠ quote) (hb : c ≠ '\\') (cs : List Char) :
    verbatim (c :: cs) = verbatim cs := by
  cases cs with
  | nil => simp [verbatim, hq, hb]
  | cons d cs => rw [verbatim, if_neg hq, if_neg hb]

/-- An escape weighs no more than its letter, or it is one of the two that keep the backslash. -/
theorem escape_weight (d : Char) :
    (escape d = ['\\', d] ∧ (d == '%' || d == '_') = true) ∨ weight (escape d) ≤ charWeight d := by
  unfold escape
  split
  · rename_i h; subst h; exact Or.inr (by decide)
  split
  · rename_i h; subst h; exact Or.inr (by decide)
  split
  · rename_i h; subst h; exact Or.inr (by decide)
  split
  · rename_i h; subst h; exact Or.inr (by decide)
  split
  · rename_i h; subst h; exact Or.inr (by decide)
  split
  · rename_i h; subst h; exact Or.inr (by decide)
  split
  · rename_i h; subst h; exact Or.inl ⟨rfl, rfl⟩
  split
  · rename_i h; subst h; exact Or.inl ⟨rfl, rfl⟩
  · exact Or.inr le_rfl

/-- The rest of a string weighs at least as much as its characters and the closing quote, and one more
between single quotes if the characters do not mean themselves. -/
theorem scan_weight {q : Char} (hq : 1 ≤ charWeight q) {cs s rest : List Char}
    (h : scan q cs = some (s, rest)) :
    weight s + charWeight q + weight rest ≤ weight cs ∧
      (q = quote → verbatim s = false → weight s + charWeight q + weight rest + 1 ≤ weight cs) := by
  induction cs using scan.induct q generalizing s with
  | case1 => simp [scan] at h
  | case2 =>
      simp only [scan, if_pos, Option.some.injEq, Prod.mk.injEq] at h
      obtain ⟨rfl, rfl⟩ := h
      simp [verbatim]
  | case3 c hc => simp [scan, hc] at h
  | case4 cs ih =>
      -- a doubled quote: two characters of the text for one of the string
      simp only [scan, if_pos, Option.map_eq_some_iff, Prod.mk.injEq] at h
      obtain ⟨⟨u, r⟩, hu, hs, hr⟩ := h
      dsimp only at hs hr
      subst hs hr
      have := (ih hu).1
      simp only [weight_cons]
      omega
  | case5 d cs hd =>
      simp only [scan, if_pos, if_neg hd, Option.some.injEq, Prod.mk.injEq] at h
      obtain ⟨rfl, rfl⟩ := h
      refine ⟨?_, fun _ hv => by simp [verbatim] at hv⟩
      simp only [weight_cons, weight_nil]
      omega
  | case6 d cs hc ih =>
      simp only [scan, if_neg hc, if_pos, Option.map_eq_some_iff, Prod.mk.injEq] at h
      obtain ⟨⟨u, r⟩, hu, hs, hr⟩ := h
      dsimp only at hs hr
      subst hs hr
      obtain ⟨hle, hlt⟩ := ih hu
      have hslash : charWeight '\\' = 1 := rfl
      rcases escape_weight d with ⟨hd, hlike⟩ | hd
      · -- the backslash stays, and the string means itself if the rest of it does
        have hkeep : verbatim (escape d ++ u) = verbatim u := by
          rw [hd]
          show verbatim ('\\' :: d :: u) = _
          rw [verbatim, if_neg (by decide), if_pos rfl, hlike, Bool.true_and]
        rw [hkeep, hd]
        simp only [weight_cons, weight_append, weight_nil, hslash]
        refine ⟨by omega, fun hquote hv => ?_⟩
        have := hlt hquote hv
        omega
      · simp only [weight_cons, weight_append, hslash]
        omega
  | case7 c d cs hc hb ih =>
      simp only [scan, if_neg hc, if_neg hb, Option.map_eq_some_iff, Prod.mk.injEq] at h
      obtain ⟨⟨u, r⟩, hu, hs, hr⟩ := h
      dsimp only at hs hr
      subst hs hr
      obtain ⟨hle, hlt⟩ := ih hu
      simp only [weight_cons] at hle hlt ⊢
      refine ⟨by omega, fun hquote hv => ?_⟩
      rw [verbatim_cons (hquote ▸ hc) hb] at hv
      have := hlt hquote hv
      omega

/-- A text between quotes is not much heavier than the text. -/
theorem strWeight_le (s : List Char) : strWeight s ≤ weight s + 3 := by
  unfold strWeight
  split <;> omega

/-- A quoted string weighs at least as much as the token. -/
theorem scan_strWeight {q : Char} (hq : q = quote ∨ q = doubleQuote) {cs s rest : List Char}
    (h : scan q cs = some (s, rest)) : strWeight s + weight rest ≤ charWeight q + weight cs := by
  have hone : 1 ≤ charWeight q := by rcases hq with rfl | rfl <;> decide
  obtain ⟨hle, hlt⟩ := scan_weight hone h
  rcases hq with rfl | rfl
  · have hquote : charWeight quote = 1 := rfl
    unfold strWeight
    split
    · omega
    · have := hlt rfl (by simpa using ‹¬ verbatim s = true›)
      omega
  · have hdouble : charWeight doubleQuote = 2 := rfl
    have := strWeight_le s
    omega

/-- A quoted identifier is heavier than its name. -/
theorem scanIdent_weight {cs w rest : List Char} (h : scanIdent cs = some (w, rest)) :
    weight w + 1 + weight rest ≤ weight cs := by
  have hone : charWeight backtick = 1 := rfl
  induction cs using scanIdent.induct generalizing w with
  | case1 => simp [scanIdent] at h
  | case2 =>
      simp only [scanIdent, if_pos, Option.some.injEq, Prod.mk.injEq] at h
      obtain ⟨rfl, rfl⟩ := h
      simp [hone]
  | case3 c hc => simp [scanIdent, hc] at h
  | case4 cs ih =>
      simp only [scanIdent, if_pos, Option.map_eq_some_iff, Prod.mk.injEq] at h
      obtain ⟨⟨u, r⟩, hu, hs, hr⟩ := h
      dsimp only at hs hr
      subst hs hr
      have := ih hu
      simp only [weight_cons]
      omega
  | case5 d cs hd =>
      simp only [scanIdent, if_pos, if_neg hd, Option.some.injEq, Prod.mk.injEq] at h
      obtain ⟨rfl, rfl⟩ := h
      simp only [weight_cons, weight_nil, hone]
      omega
  | case6 c d cs hc ih =>
      simp only [scanIdent, if_neg hc, Option.map_eq_some_iff, Prod.mk.injEq] at h
      obtain ⟨⟨u, r⟩, hu, hs, hr⟩ := h
      dsimp only at hs hr
      subst hs hr
      have := ih hu
      simp only [weight_cons] at this ⊢
      omega

/-! What is left after a comment is a suffix of the text. -/

/-- What follows a block comment is an end of the text. -/
theorem afterBlock_suffix {cs rest : List Char} (h : afterBlock cs = some rest) : rest <:+ cs := by
  induction cs using afterBlock.induct with
  | case1 cs =>
      simp only [afterBlock, Option.some.injEq] at h
      subst h
      exact ⟨['*', '/'], rfl⟩
  | case2 c cs hne ih =>
      rw [afterBlock] at h
      · exact (ih h).trans (List.suffix_cons c cs)
      · exact hne
  | case3 => simp [afterBlock] at h

/-- What follows a comment is an end of the text. -/
theorem afterComment_suffix {c : Char} {cs rest : List Char} (h : afterComment (c :: cs) = some rest) :
    rest <:+ cs := by
  unfold afterComment at h
  split at h
  · rename_i heq
    cases heq
    cases h
    exact List.dropWhile_suffix _
  · rename_i heq
    cases heq
    split at h
    · cases h
      exact (List.dropWhile_suffix _).trans (List.suffix_cons _ _)
    · cases h
  · rename_i heq
    cases heq
    split at h
    · cases h
    · exact (afterBlock_suffix h).trans (List.suffix_cons _ _)
  · cases h

/-- A string takes at least its closing quote. -/
theorem scan_length {q : Char} {cs s rest : List Char} (h : scan q cs = some (s, rest)) :
    rest.length < cs.length := by
  induction cs using scan.induct q generalizing s with
  | case1 => simp [scan] at h
  | case2 => simp_all [scan]
  | case3 c hc => simp [scan, hc] at h
  | case4 cs ih =>
      simp only [scan, if_pos, Option.map_eq_some_iff, Prod.mk.injEq] at h
      obtain ⟨⟨u, r⟩, hu, -, rfl⟩ := h
      exact (ih hu).trans (by simp only [List.length_cons]; omega)
  | case5 d cs hd =>
      simp only [scan, if_pos, if_neg hd, Option.some.injEq, Prod.mk.injEq] at h
      obtain ⟨-, rfl⟩ := h
      simp
  | case6 d cs hc ih =>
      simp only [scan, if_neg hc, if_pos, Option.map_eq_some_iff, Prod.mk.injEq] at h
      obtain ⟨⟨u, r⟩, hu, -, rfl⟩ := h
      exact (ih hu).trans (by simp only [List.length_cons]; omega)
  | case7 c d cs hc hb ih =>
      simp only [scan, if_neg hc, if_neg hb, Option.map_eq_some_iff, Prod.mk.injEq] at h
      obtain ⟨⟨u, r⟩, hu, -, rfl⟩ := h
      exact (ih hu).trans (Nat.lt_succ_self _)

/-- A quoted identifier takes at least its closing quote. -/
theorem scanIdent_length {cs w rest : List Char} (h : scanIdent cs = some (w, rest)) :
    rest.length < cs.length := by
  induction cs using scanIdent.induct generalizing w with
  | case1 => simp [scanIdent] at h
  | case2 => simp_all [scanIdent]
  | case3 c hc => simp [scanIdent, hc] at h
  | case4 cs ih =>
      simp only [scanIdent, if_pos, Option.map_eq_some_iff, Prod.mk.injEq] at h
      obtain ⟨⟨u, r⟩, hu, -, rfl⟩ := h
      exact (ih hu).trans (by simp only [List.length_cons]; omega)
  | case5 d cs hd =>
      simp only [scanIdent, if_pos, if_neg hd, Option.some.injEq, Prod.mk.injEq] at h
      obtain ⟨-, rfl⟩ := h
      simp
  | case6 c d cs hc ih =>
      simp only [scanIdent, if_neg hc, Option.map_eq_some_iff, Prod.mk.injEq] at h
      obtain ⟨⟨u, r⟩, hu, -, rfl⟩ := h
      exact (ih hu).trans (Nat.lt_succ_self _)

/-- An end of a text is not heavier than the text. -/
theorem weight_le_of_suffix {cs ds : List Char} (h : cs <:+ ds) : weight cs ≤ weight ds := by
  obtain ⟨pre, rfl⟩ := h
  simp

/-- The weight of the text of an integer. -/
def intWeight (n : ℤ) : ℕ := (if n < 0 then 1 else 0) + (Nat.toDigits 10 n.natAbs).length

/-- The least weight of a token. -/
def Token.weight : Token → ℕ
  | .word w => Mysql.weight w
  | .quotedWord w => Mysql.weight w + 2
  | .num ds => intWeight (Nat.ofDigitChars 10 ds 0)
  | .str s => strWeight s
  | .null => 2
  | .sym _ => 1

/-- The least weight of a list of tokens. -/
def cost (ts : List Token) : ℕ := (ts.map Token.weight).sum

@[simp] theorem cost_nil : cost [] = 0 := rfl

@[simp] theorem cost_cons (t : Token) (ts : List Token) : cost (t :: ts) = t.weight + cost ts := by
  simp [cost]

/-- A character of a word is no blank. -/
theorem isIdentChar_ne_space {c : Char} (h : isIdentChar c = true) : c ≠ ' ' := by
  rintro rfl
  cases h

/-- A text without blanks weighs at least its length. -/
theorem length_le_weight {cs : List Char} (h : ∀ c ∈ cs, c ≠ ' ') : cs.length ≤ weight cs := by
  induction cs with
  | nil => exact le_rfl
  | cons c cs ih =>
      have hc := one_le_charWeight (h c List.mem_cons_self)
      have := ih fun d hd => h d (List.mem_cons_of_mem c hd)
      simp only [List.length_cons, weight_cons]
      omega

/-- A numeral is below the power of ten of its length. -/
theorem ofDigitChars_lt {ds : List Char} (h : ∀ c ∈ ds, c.isDigit = true) :
    Nat.ofDigitChars 10 ds 0 < 10 ^ ds.length := by
  induction ds with
  | nil => simp
  | cons c ds ih =>
      have hc : c.toNat - '0'.toNat < 10 := by
        have hdigit := Char.isDigit_iff_toNat.mp (h c List.mem_cons_self)
        have hzero : '0'.toNat = 48 := rfl
        have hnine : '9'.toNat = 57 := rfl
        omega
      have hds := ih fun d hd => h d (List.mem_cons_of_mem c hd)
      rw [Nat.ofDigitChars_cons, Nat.mul_zero, Nat.zero_add, Nat.ofDigitChars_eq_ofDigitChars_zero,
        List.length_cons, Nat.pow_succ]
      have hmul := Nat.mul_le_mul_left (10 ^ ds.length) (Nat.le_of_lt_succ hc)
      omega

/-- A number has no more digits than any text of it. -/
theorem intWeight_ofDigitChars {ds : List Char} (h : ∀ c ∈ ds, c.isDigit = true) (hne : ds ≠ []) :
    intWeight (Nat.ofDigitChars 10 ds 0) ≤ ds.length := by
  rw [intWeight, if_neg (by simp), Nat.zero_add, Int.natAbs_natCast,
    Nat.length_toDigits_le_iff (by decide) (List.length_pos_iff.mpr hne)]
  exact ofDigitChars_lt h

/-- The token of a word is not heavier than the word. -/
theorem wordToken_weight {w rest : List Char} {t : Token} (hne : w ≠ [])
    (hw : ∀ c ∈ w, c ≠ ' ') (h : wordToken w rest = some t) : t.weight ≤ weight w := by
  unfold wordToken at h
  split at h
  · rename_i hdigits
    cases h
    exact (intWeight_ofDigitChars (List.all_eq_true.mp hdigits) hne).trans (length_le_weight hw)
  · split at h
    · cases h
    · cases h
      exact le_rfl

/-- **One step of the lexical grammar**: it consumes something, and what it consumes weighs at least
as much as the token. -/
theorem next_weight {cs rest : List Char} {t : Option Token} (h : next cs = some (t, rest)) :
    rest.length < cs.length ∧ cost t.toList + weight rest ≤ weight cs := by
  cases cs with
  | nil => cases h
  | cons c tail =>
      rw [next] at h
      split at h
      · cases h
        simp
      · rename_i hspace
        have hc : 1 ≤ charWeight c := one_le_charWeight (by rintro rfl; exact hspace rfl)
        split at h
        · -- a comment
          rename_i hcomment
          cases h
          have hsuffix := afterComment_suffix hcomment
          have := hsuffix.length_le
          have := weight_le_of_suffix hsuffix
          simp only [Option.toList_none, cost_nil, List.length_cons, weight_cons]
          omega
        · split at h
          · -- a string between quotes
            rename_i hquote
            simp only [Option.map_eq_some_iff, Prod.mk.injEq] at h
            obtain ⟨⟨s, r⟩, hscan, rfl, rfl⟩ := h
            have := scan_length hscan
            have := scan_strWeight hquote hscan
            simp only [Option.toList_some, cost_cons, cost_nil, Token.weight, List.length_cons, weight_cons]
            omega
          · split at h
            · -- an identifier between backticks
              rename_i hback
              simp only [Option.map_eq_some_iff, Prod.mk.injEq] at h
              obtain ⟨⟨w, r⟩, hscan, rfl, rfl⟩ := h
              have := scanIdent_length hscan
              have := scanIdent_weight hscan
              simp only [Option.toList_some, cost_cons, cost_nil, Token.weight, List.length_cons, weight_cons]
              omega
            · split at h
              · -- a word or a numeral
                rename_i hident
                simp only [Option.map_eq_some_iff, Prod.mk.injEq] at h
                obtain ⟨t, ht, rfl, rfl⟩ := h
                have hword := wordToken_weight (by rw [List.takeWhile_cons_of_pos hident]; simp)
                  (fun d hd => isIdentChar_ne_space (List.mem_takeWhile_imp hd)) ht
                have hsplit := congrArg weight (List.takeWhile_append_dropWhile (p := isIdentChar) (l := c :: tail))
                rw [weight_append] at hsplit
                rw [Option.toList_some, cost_cons, cost_nil]
                refine ⟨?_, by omega⟩
                rw [List.dropWhile_cons_of_pos hident]
                exact Nat.lt_succ_of_le (List.dropWhile_suffix _).length_le
              · split at h
                · simp only [Option.map_eq_some_iff, Prod.mk.injEq] at h
                  obtain ⟨r, hnull, rfl, rfl⟩ := h
                  -- the two characters of a null, or a symbol
                  unfold nullToken at hnull
                  split at hnull
                  · cases hnull
                    have hN : charWeight 'N' = 1 := rfl
                    simp only [Option.toList_some, cost_cons, cost_nil, Token.weight, List.length_cons,
                      weight_cons]
                    omega
                  · cases hnull
                · cases h
                  simp only [Option.toList_some, cost_cons, cost_nil, Token.weight, List.length_cons, weight_cons]
                  omega

/-- The tokens of a text are not heavier than the text. -/
theorem tokens_weight {n : ℕ} {cs : List Char} {ts : List Token} (h : tokens n cs = some ts) :
    cost ts ≤ weight cs := by
  induction n generalizing cs ts with
  | zero =>
      cases cs with
      | nil => cases h; exact le_rfl
      | cons c cs => cases h
  | succ n ih =>
      cases cs with
      | nil => cases h; exact le_rfl
      | cons c cs =>
          simp only [tokens, Option.bind_eq_some_iff, Option.map_eq_some_iff] at h
          obtain ⟨⟨t, rest⟩, hnext, us, hus, rfl⟩ := h
          have hfirst := (next_weight hnext).2
          have hrest := ih hus
          have hcost : cost (t.toList ++ us) = cost t.toList + cost us := by simp [cost]
          dsimp only at hrest ⊢
          omega

/-- **The tokens weigh no more than the text.** -/
theorem lex_weight {cs : List Char} {ts : List Token} (h : lex cs = some ts) : cost ts ≤ weight cs :=
  tokens_weight h

/-! ## Plain texts -/

/-- The steps do not matter as long as there are enough. -/
theorem tokens_eq_lex {n : ℕ} {cs : List Char} (h : cs.length ≤ n) : tokens n cs = lex cs := by
  unfold lex
  induction n using Nat.strong_induction_on generalizing cs with
  | _ n ih =>
      cases cs with
      | nil => cases n <;> rfl
      | cons c cs =>
          cases n with
          | zero => simp at h
          | succ n =>
              rw [List.length_cons, tokens, tokens]
              rw [List.length_cons] at h
              cases hnext : next (c :: cs) with
              | none => rfl
              | some p =>
                  have hshort : p.2.length ≤ cs.length := Nat.le_of_lt_succ (next_weight hnext).1
                  rw [Option.bind_some, Option.bind_some, ih n (by omega) (by omega),
                    ih cs.length (by omega) hshort]

/-- The tokens of a text, from the first one on. -/
theorem lex_of_next {cs rest : List Char} {t : Option Token} (h : next cs = some (t, rest)) :
    lex cs = (lex rest).map (t.toList ++ ·) := by
  cases cs with
  | nil => cases h
  | cons c cs =>
      rw [lex, List.length_cons, tokens, h, Option.bind_some,
        tokens_eq_lex (Nat.le_of_lt_succ (next_weight h).1)]

/-- The characters after a word, a number or a string in a plain text. -/
def Breaks (rest : List Char) : Prop := ∀ c ∈ rest.head?, c ∈ [' ', ',', '(', ')', '=']

/-- The end of a text ends a word. -/
theorem breaks_nil : Breaks [] := by
  intro c hc
  cases hc

/-- So do a blank and the symbols. -/
theorem breaks_cons {c : Char} (h : c ∈ [' ', ',', '(', ')', '=']) (rest : List Char) : Breaks (c :: rest) := by
  intro d hd
  cases hd
  exact h

/-- A blank brings no token. -/
theorem lex_space (rest : List Char) : lex (' ' :: rest) = lex rest := by
  have hnext : next (' ' :: rest) = some (none, rest) := rfl
  rw [lex_of_next hnext]
  exact Option.map_id'

/-- A symbol is a token. -/
theorem lex_symbol {c : Char} (h : c ∈ [',', '(', ')', '=']) (rest : List Char) :
    lex (c :: rest) = (lex rest).map (Token.sym c :: ·) := by
  have hnext : next (c :: rest) = some (some (.sym c), rest) := by
    simp only [List.mem_cons, List.not_mem_nil, or_false] at h
    rcases h with rfl | rfl | rfl | rfl <;> rfl
  rw [lex_of_next hnext]
  rfl

/-- A word that is no number. -/
def isWord (w : List Char) : Bool :=
  !w.isEmpty && w.all isIdentChar && !w.all Char.isDigit && !isNumeral w []

/-- No sign of an exponent stands after the word. -/
theorem isNumeral_of_breaks {w rest : List Char} (h : Breaks rest) : isNumeral w rest = isNumeral w [] := by
  unfold isNumeral
  split
  · rfl
  · rfl
  · congr 1
    cases rest with
    | nil => rfl
    | cons c rest =>
        have hc := h c rfl
        simp only [List.mem_cons, List.not_mem_nil, or_false] at hc
        generalize List.dropWhile Char.isDigit _ = ds
        rcases ds with - | ⟨e, - | ⟨d, ds⟩⟩
        · rfl
        · cases rest with
          | nil => rfl
          | cons d rest => rcases hc with rfl | rfl | rfl | rfl | rfl <;> simp
        · rfl
  · rfl

/-- A word ends where it should. -/
theorem takeWhile_append_of_breaks {w rest : List Char} (hw : w.all isIdentChar = true) (h : Breaks rest) :
    (w ++ rest).takeWhile isIdentChar = w ∧ (w ++ rest).dropWhile isIdentChar = rest := by
  have hstop : rest.takeWhile isIdentChar = [] ∧ rest.dropWhile isIdentChar = rest := by
    cases rest with
    | nil => exact ⟨rfl, rfl⟩
    | cons c rest =>
        have hc := h c rfl
        have : ¬ isIdentChar c = true := by
          simp only [List.mem_cons, List.not_mem_nil, or_false] at hc
          rcases hc with rfl | rfl | rfl | rfl | rfl <;> decide
        exact ⟨List.takeWhile_cons_of_neg this, List.dropWhile_cons_of_neg this⟩
  have hall := List.all_eq_true.mp hw
  rw [List.takeWhile_append_of_pos hall, List.dropWhile_append_of_pos hall, hstop.1, hstop.2,
    List.append_nil]
  exact ⟨rfl, rfl⟩

/-- An identifier character starts neither a blank nor a comment nor a string. -/
theorem next_of_isIdentChar {c : Char} (h : isIdentChar c = true) (tail : List Char) :
    next (c :: tail) =
      (wordToken ((c :: tail).takeWhile isIdentChar) ((c :: tail).dropWhile isIdentChar)).map
        fun t => (some t, (c :: tail).dropWhile isIdentChar) := by
  have hspace : ¬ isSpace c = true := by
    intro hs
    simp only [isSpace, Bool.or_eq_true, beq_iff_eq] at hs
    rcases hs with ((((rfl | rfl) | rfl) | rfl) | rfl) | rfl <;> cases h
  have hcomment : afterComment (c :: tail) = none := by
    unfold afterComment
    split
    · rename_i heq; cases heq; cases h
    · rename_i heq; cases heq; cases h
    · rename_i heq; cases heq; cases h
    · rfl
  have hquote : ¬ (c = quote ∨ c = doubleQuote) := by
    rintro (rfl | rfl) <;> cases h
  have hback : ¬ c = backtick := by
    rintro rfl
    cases h
  rw [next, if_neg hspace, hcomment]
  dsimp only
  rw [if_neg hquote, if_neg hback, if_pos h]

/-- A word is a token. -/
theorem lex_word {w rest : List Char} (hw : isWord w = true) (h : Breaks rest) :
    lex (w ++ rest) = (lex rest).map (Token.word w :: ·) := by
  simp only [isWord, Bool.and_eq_true, Bool.not_eq_true'] at hw
  obtain ⟨⟨⟨hne, hident⟩, hdigits⟩, hnumeral⟩ := hw
  cases w with
  | nil => cases hne
  | cons c w =>
      have hc : isIdentChar c = true := List.all_eq_true.mp hident c List.mem_cons_self
      obtain ⟨htake, hdrop⟩ := takeWhile_append_of_breaks hident h
      have hnext : next (c :: (w ++ rest)) = some (some (.word (c :: w)), rest) := by
        rw [List.cons_append] at htake hdrop
        rw [next_of_isIdentChar hc, htake, hdrop, wordToken, hdigits, isNumeral_of_breaks h, hnumeral]
        rfl
      rw [List.cons_append, lex_of_next hnext]
      rfl

/-- A digit may stand in a word. -/
theorem isIdentChar_of_isDigit {c : Char} (h : c.isDigit = true) : isIdentChar c = true := by
  simp [isIdentChar, Char.isAlphanum, h]

/-- A numeral is a token. -/
theorem lex_digits (n : ℕ) {rest : List Char} (h : Breaks rest) :
    lex (Nat.toDigits 10 n ++ rest) = (lex rest).map (Token.num (Nat.toDigits 10 n) :: ·) := by
  have hdigits : (Nat.toDigits 10 n).all Char.isDigit = true :=
    List.all_eq_true.mpr fun _ => Nat.isDigit_of_mem_toDigits (by decide) (by decide)
  have hident : (Nat.toDigits 10 n).all isIdentChar = true :=
    List.all_eq_true.mpr fun c hc => isIdentChar_of_isDigit (List.all_eq_true.mp hdigits c hc)
  have hne : Nat.toDigits 10 n ≠ [] := Nat.toDigits_ne_nil
  generalize Nat.toDigits 10 n = ds at *
  cases ds with
  | nil => exact absurd rfl hne
  | cons c ds =>
      obtain ⟨htake, hdrop⟩ := takeWhile_append_of_breaks hident h
      have hnext : next (c :: (ds ++ rest)) = some (some (.num (c :: ds)), rest) := by
        rw [List.cons_append] at htake hdrop
        rw [next_of_isIdentChar (List.all_eq_true.mp hident c List.mem_cons_self), htake, hdrop, wordToken,
          hdigits]
        rfl
      rw [List.cons_append, lex_of_next hnext]
      rfl

/-- The closing quote ends a string. -/
theorem scan_quote {rest : List Char} (h : Breaks rest) : scan quote (quote :: rest) = some ([], rest) := by
  cases rest with
  | nil => rfl
  | cons c rest =>
      have hc : c ≠ quote := by
        rintro rfl
        exact absurd (h quote rfl) (by decide)
      rw [scan, if_pos rfl, if_neg hc]

/-- A string that means itself is read as itself. -/
theorem scan_verbatim {s rest : List Char} (hs : verbatim s = true) (h : Breaks rest) :
    scan quote (s ++ quote :: rest) = some (s, rest) := by
  induction s using verbatim.induct with
  | case1 => exact scan_quote h
  | case2 c =>
      simp only [verbatim, Bool.and_eq_true, decide_eq_true_eq] at hs
      show scan quote (c :: quote :: rest) = _
      rw [scan, if_neg hs.1, if_neg hs.2, scan_quote h]
      rfl
  | case3 d cs => simp [verbatim] at hs
  | case4 d cs hq ih =>
      rw [verbatim, if_neg hq, if_pos rfl, Bool.and_eq_true] at hs
      have hkeep : escape d = ['\\', d] := by
        have hd := hs.1
        simp only [Bool.or_eq_true, beq_iff_eq] at hd
        rcases hd with rfl | rfl <;> rfl
      show scan quote ('\\' :: d :: (cs ++ quote :: rest)) = _
      rw [scan, if_neg hq, if_pos rfl, ih hs.2, hkeep]
      rfl
  | case5 c d cs hq hb ih =>
      rw [verbatim, if_neg hq, if_neg hb] at hs
      show scan quote (c :: d :: (cs ++ quote :: rest)) = _
      have hrest := ih hs
      rw [List.cons_append] at hrest
      rw [scan, if_neg hq, if_neg hb, hrest]
      rfl

/-- A text that needs no care is a token between its quotes. -/
theorem lex_str {s rest : List Char} (hs : verbatim s = true) (h : Breaks rest) :
    lex (quote :: (s ++ quote :: rest)) = (lex rest).map (Token.str s :: ·) := by
  have hnext : next (quote :: (s ++ quote :: rest)) = some (some (.str s), rest) := by
    have hcomment : afterComment (quote :: (s ++ quote :: rest)) = none := rfl
    rw [next, if_neg (by decide), hcomment]
    dsimp only
    rw [if_pos (Or.inl rfl), scan_verbatim hs h]
    rfl
  rw [lex_of_next hnext]
  rfl

end Mysql
