/-
# Statements of MySQL

A reader for two forms of statements:

    INSERT INTO table (column, ...) VALUES (literal, ...)
    UPDATE table SET column = literal, ... [WHERE column = literal]

Adjacent strings are one literal.  What has another form is not read (`none`), so `read` gives a
statement only where the text is this one statement and nothing else.  The reserved words of the server
are a parameter.

A statement weighs no more than its text (`read_weight`), and the plain text of a statement is read as
the statement (`read_insertText`, `read_updateText`).
-/
import DoudizhuBackend.Mysql.Lexer

namespace Mysql

/-! ## Statements -/

/-- A literal: a text or an integer. -/
inductive Literal where
  | str (s : List Char)
  | int (n : ℤ)
  | null
  deriving DecidableEq, Repr

/-- The two forms of statements, each with its columns and their literals in order. -/
inductive Statement where
  | insert (table : List Char) (pairs : List (List Char × Literal))
  | update (table : List Char) (set : List (List Char × Literal)) (cond : Option (List Char × Literal))
  deriving DecidableEq, Repr

/-- The keywords of the two forms. -/
inductive Keyword where
  | insert
  | into
  | values
  | update
  | set
  | where
  | null
  deriving DecidableEq, Repr

/-- The spelling of a keyword. -/
def Keyword.text : Keyword → List Char
  | .insert => ['I', 'N', 'S', 'E', 'R', 'T']
  | .into => ['I', 'N', 'T', 'O']
  | .values => ['V', 'A', 'L', 'U', 'E', 'S']
  | .update => ['U', 'P', 'D', 'A', 'T', 'E']
  | .set => ['S', 'E', 'T']
  | .where => ['W', 'H', 'E', 'R', 'E']
  | .null => ['N', 'U', 'L', 'L']

/-- Keywords are read in upper and lower case. -/
def isKeyword (k : Keyword) (w : List Char) : Bool := w.map Char.toUpper == k.text

/-- Reads a keyword. -/
def keyword (k : Keyword) : List Token → Option (List Token)
  | .word w :: ts => if isKeyword k w then some ts else none
  | _ => none

/-- Reads a symbol. -/
def symbol (c : Char) : List Token → Option (List Token)
  | .sym d :: ts => if d = c then some ts else none
  | _ => none

/-- An identifier: quoted, or a word that is not reserved. -/
def ident (reserved : List Char → Bool) : List Token → Option (List Char × List Token)
  | .word w :: ts => if reserved w then none else some (w, ts)
  | .quotedWord w :: ts => some (w, ts)
  | _ => none

/-- The strings at the front of the tokens, joined, and the other tokens. -/
def joined : List Token → List Char × List Token
  | .str s :: ts => (s ++ (joined ts).1, (joined ts).2)
  | ts => ([], ts)

/-- Reads a literal; texts that follow each other are one. -/
def literal : List Token → Option (Literal × List Token)
  | .str s :: ts => some (.str (s ++ (joined ts).1), (joined ts).2)
  | .num ds :: ts => some (.int (Nat.ofDigitChars 10 ds 0), ts)
  | .sym c :: .num ds :: ts => if c = '-' then some (.int (-(Nat.ofDigitChars 10 ds 0)), ts) else none
  | .null :: ts => some (.null, ts)
  | .word w :: ts => if isKeyword .null w then some (.null, ts) else none
  | _ => none

/-- Reads `column = literal`. -/
def assignment (reserved : List Char → Bool) (ts : List Token) :
    Option ((List Char × Literal) × List Token) := do
  let (column, ts) ← ident reserved ts
  let ts ← symbol '=' ts
  let (value, ts) ← literal ts
  some ((column, value), ts)

section Lists

variable {α : Type} (item : List Token → Option (α × List Token))

/-- The further items of a list, each after a comma. -/
def more : ℕ → List Token → Option (List α × List Token)
  | n + 1, .sym c :: ts =>
      if c = ',' then (item ts).bind fun p => (more n p.2).map fun q => (p.1 :: q.1, q.2)
      else some ([], .sym c :: ts)
  | _, ts => some ([], ts)

/-- A list of at least one item. -/
def separated (ts : List Token) : Option (List α × List Token) :=
  (item ts).bind fun p => (more item p.2.length p.2).map fun q => (p.1 :: q.1, q.2)

/-- A list in parentheses, which may be empty. -/
def parens (ts : List Token) : Option (List α × List Token) :=
  (symbol '(' ts).bind fun ts =>
    match symbol ')' ts with
    | some rest => some ([], rest)
    | none => (separated item ts).bind fun p => (symbol ')' p.2).map fun rest => (p.1, rest)

end Lists

/-- The end of a statement. -/
def atEnd : List Token → Bool
  | [] => true
  | [.sym c] => c == ';'
  | _ => false

/-- Reads an `INSERT`. -/
def parseInsert (reserved : List Char → Bool) (ts : List Token) : Option Statement := do
  let ts ← keyword .insert ts
  let ts ← keyword .into ts
  let (table, ts) ← ident reserved ts
  let (columns, ts) ← parens (ident reserved) ts
  let ts ← keyword .values ts
  let (values, ts) ← parens literal ts
  if columns.length = values.length ∧ atEnd ts then some (.insert table (columns.zip values)) else none

/-- The optional condition of an `UPDATE`. -/
def condition (reserved : List Char → Bool) (ts : List Token) :
    Option (Option (List Char × Literal) × List Token) :=
  match keyword .where ts with
  | some ts => (assignment reserved ts).map fun p => (some p.1, p.2)
  | none => some (none, ts)

/-- Reads an `UPDATE`. -/
def parseUpdate (reserved : List Char → Bool) (ts : List Token) : Option Statement := do
  let ts ← keyword .update ts
  let (table, ts) ← ident reserved ts
  let ts ← keyword .set ts
  let (set, ts) ← separated (assignment reserved) ts
  let (cond, ts) ← condition reserved ts
  if atEnd ts then some (.update table set cond) else none

/-- The statement that a text is. -/
def read (reserved : List Char → Bool) (text : List Char) : Option Statement :=
  (lex text).bind fun ts => (parseInsert reserved ts).or (parseUpdate reserved ts)

/-! ## The weight of a statement -/

/-- The least weight of a literal. -/
def Literal.weight : Literal → ℕ
  | .str s => strWeight s
  | .int n => intWeight n
  | .null => 2

/-- The weight of a list with commas, from the weights of its items. -/
def listWeight {α : Type} (f : α → ℕ) (l : List α) : ℕ := (l.map f).sum + (l.length - 1)

/-- The weight of a list, from the first item on. -/
theorem listWeight_cons {α : Type} (f : α → ℕ) (x : α) (l : List α) :
    listWeight f (x :: l) = f x + (l.map fun y => 1 + f y).sum := by
  unfold listWeight
  have hsum : (l.map fun y => 1 + f y).sum = l.length + (l.map f).sum := by
    induction l with
    | nil => rfl
    | cons y l ih =>
        simp only [List.map_cons, List.sum_cons, List.length_cons]
        omega
  simp only [List.map_cons, List.sum_cons, List.length_cons, hsum]
  omega

/-- The weight of the images of a list. -/
theorem listWeight_map {α β : Type} (f : β → ℕ) (g : α → β) (l : List α) :
    listWeight f (l.map g) = listWeight (fun x => f (g x)) l := by
  rw [listWeight, listWeight, List.map_map, List.length_map]
  rfl

/-- The weight of `column=literal`. -/
def pairWeight (p : List Char × Literal) : ℕ := Mysql.weight p.1 + 1 + p.2.weight

/-- The least weight of a statement. -/
def Statement.weight : Statement → ℕ
  | .insert table pairs =>
      20 + Mysql.weight table + listWeight (fun p => Mysql.weight p.1) pairs +
        listWeight (fun p => p.2.weight) pairs
  | .update table set cond =>
      9 + Mysql.weight table + listWeight pairWeight set + (cond.elim 0 fun p => 5 + pairWeight p)

/-- Characters behind the quotes weigh one. -/
theorem charWeight_of_lt {c : Char} (h : 34 < c.toNat) : charWeight c = 1 := by
  rw [charWeight, if_neg (by rintro rfl; exact absurd h (by decide)),
    if_neg (by rintro rfl; exact absurd h (by decide))]

/-- Letters of both cases weigh the same. -/
theorem charWeight_toUpper (c : Char) : charWeight c.toUpper = charWeight c := by
  unfold Char.toUpper
  split
  · rename_i h
    have hlow : 97 ≤ c.val.toNat := h.1
    have hhigh : c.val.toNat ≤ 122 := h.2
    have hsum : (c.val + ('A'.val - 'a'.val)).toNat = c.val.toNat - 32 := by
      have hshift : ('A'.val - 'a'.val).toNat = 4294967264 := by decide
      rw [UInt32.toNat_add, hshift]
      omega
    rw [charWeight_of_lt (c := c) (show 34 < c.val.toNat by omega), charWeight_of_lt]
    show 34 < (c.val + ('A'.val - 'a'.val)).toNat
    omega
  · rfl

/-- A keyword weighs the same in either case. -/
theorem weight_of_isKeyword {k : Keyword} {w : List Char} (h : isKeyword k w = true) :
    weight w = weight k.text := by
  rw [← beq_iff_eq.mp h, weight, weight, List.map_map]
  congr 1
  apply List.map_congr_left
  intro c _
  exact (charWeight_toUpper c).symm

/-- What a keyword takes. -/
theorem keyword_weight {k : Keyword} {ts rest : List Token} (h : keyword k ts = some rest) :
    weight k.text + cost rest ≤ cost ts := by
  unfold keyword at h
  split at h
  · split at h
    · rename_i hk
      cases h
      rw [cost_cons, Token.weight, weight_of_isKeyword hk]
    · cases h
  · cases h

/-- What a symbol takes. -/
theorem symbol_weight {c : Char} {ts rest : List Token} (h : symbol c ts = some rest) :
    1 + cost rest ≤ cost ts := by
  unfold symbol at h
  split at h
  · split at h
    · cases h
      rw [cost_cons, Token.weight]
    · cases h
  · cases h

/-- What an identifier takes. -/
theorem ident_weight {reserved : List Char → Bool} {ts rest : List Token} {w : List Char}
    (h : ident reserved ts = some (w, rest)) : weight w + cost rest ≤ cost ts := by
  unfold ident at h
  split at h
  · split at h
    · cases h
    · cases h
      rw [cost_cons, Token.weight]
  · cases h
    rw [cost_cons, Token.weight]
    omega
  · cases h

/-- Joining strings saves their quotes. -/
theorem joined_weight (s : List Char) (ts : List Token) :
    strWeight (s ++ (joined ts).1) + cost (joined ts).2 ≤ strWeight s + cost ts := by
  induction ts generalizing s with
  | nil => simp [joined]
  | cons t ts ih =>
      cases t with
      | str u =>
          have hjoin := ih (s ++ u)
          have hle := strWeight_le (s ++ u)
          rw [List.append_assoc] at hjoin
          rw [weight_append] at hle
          have hs : weight s + 2 ≤ strWeight s := Nat.le_add_right _ _
          have hu : weight u + 2 ≤ strWeight u := Nat.le_add_right _ _
          simp only [joined, cost_cons, Token.weight]
          omega
      | _ => simp [joined]


/-- What a literal takes. -/
theorem literal_weight {ts rest : List Token} {l : Literal} (h : literal ts = some (l, rest)) :
    l.weight + cost rest ≤ cost ts := by
  unfold literal at h
  split at h
  · cases h
    rw [cost_cons]
    exact joined_weight _ _
  · cases h
    rw [cost_cons]
    exact le_rfl
  · split at h
    · cases h
      rename_i ds _
      have hneg : intWeight (-(Nat.ofDigitChars 10 ds 0 : ℤ)) ≤ 1 + intWeight (Nat.ofDigitChars 10 ds 0) := by
        unfold intWeight
        rw [Int.natAbs_neg]
        split <;> omega
      simp only [cost_cons, Token.weight, Literal.weight]
      omega
    · cases h
  · cases h
    rw [cost_cons]
    exact le_rfl
  · split at h
    · rename_i hk
      cases h
      have hnull : weight Keyword.null.text = 4 := by decide
      rw [cost_cons, Token.weight, weight_of_isKeyword hk, hnull, Literal.weight]
      omega
    · cases h
  · cases h

/-- What an assignment takes. -/
theorem assignment_weight {reserved : List Char → Bool} {ts rest : List Token} {p : List Char × Literal}
    (h : assignment reserved ts = some (p, rest)) : pairWeight p + cost rest ≤ cost ts := by
  simp only [assignment, Option.bind_eq_bind, Option.bind_eq_some_iff, Option.some.injEq] at h
  obtain ⟨⟨column, ts₁⟩, hcolumn, ts₂, hsymbol, ⟨value, ts₃⟩, hvalue, heq⟩ := h
  cases heq
  dsimp only at *
  have := ident_weight hcolumn
  have := symbol_weight hsymbol
  have := literal_weight hvalue
  simp only [pairWeight]
  omega

section Lists

variable {α : Type} {item : List Token → Option (α × List Token)} {f : α → ℕ}
  (hitem : ∀ ts x rest, item ts = some (x, rest) → f x + cost rest ≤ cost ts)

include hitem

/-- What the items behind the first one take. -/
theorem more_weight {n : ℕ} {ts rest : List Token} {xs : List α} (h : more item n ts = some (xs, rest)) :
    (xs.map fun y => 1 + f y).sum + cost rest ≤ cost ts := by
  induction n generalizing ts xs with
  | zero =>
      cases h
      simp
  | succ n ih =>
      unfold more at h
      split at h
      · rename_i heq
        cases heq
        split at h
        · simp only [Option.bind_eq_some_iff, Option.map_eq_some_iff, Prod.mk.injEq] at h
          obtain ⟨⟨x, us⟩, hx, ⟨ys, vs⟩, hys, hxs, hrest⟩ := h
          dsimp only at hys hxs hrest
          subst hxs hrest
          have := hitem _ _ _ hx
          have := ih hys
          simp only [List.map_cons, List.sum_cons, cost_cons, Token.weight]
          omega
        · cases h
          simp
      · cases h
        simp

/-- What a list with commas takes. -/
theorem separated_weight {ts rest : List Token} {xs : List α} (h : separated item ts = some (xs, rest)) :
    listWeight f xs + cost rest ≤ cost ts := by
  simp only [separated, Option.bind_eq_some_iff, Option.map_eq_some_iff, Prod.mk.injEq] at h
  obtain ⟨⟨x, us⟩, hx, ⟨ys, vs⟩, hys, hxs, hrest⟩ := h
  dsimp only at hys hxs hrest
  subst hxs hrest
  have := hitem _ _ _ hx
  have := more_weight hitem hys
  rw [listWeight_cons]
  omega

/-- What a list between brackets takes. -/
theorem parens_weight {ts rest : List Token} {xs : List α} (h : parens item ts = some (xs, rest)) :
    2 + listWeight f xs + cost rest ≤ cost ts := by
  simp only [parens, Option.bind_eq_some_iff] at h
  obtain ⟨us, hopen, h⟩ := h
  have := symbol_weight hopen
  split at h
  · rename_i hclose
    cases h
    have := symbol_weight hclose
    have hempty : listWeight f [] = 0 := rfl
    omega
  · simp only [Option.bind_eq_some_iff, Option.map_eq_some_iff, Prod.mk.injEq] at h
    obtain ⟨⟨ys, vs⟩, hys, ws, hclose, rfl, rfl⟩ := h
    dsimp only at hclose ⊢
    have := separated_weight hitem hys
    have := symbol_weight hclose
    omega

end Lists

/-- An `INSERT` is not heavier than its tokens. -/
theorem parseInsert_weight {reserved : List Char → Bool} {ts : List Token} {stmt : Statement}
    (h : parseInsert reserved ts = some stmt) : stmt.weight ≤ cost ts := by
  simp only [parseInsert, Option.bind_eq_bind, Option.bind_eq_some_iff] at h
  obtain ⟨ts₁, hinsert, ts₂, hinto, ⟨table, ts₃⟩, htable, ⟨columns, ts₄⟩, hcolumns, ts₅, hvalues,
    ⟨values, ts₆⟩, hliterals, h⟩ := h
  dsimp only at *
  split at h
  · rename_i hlength
    cases h
    have hfst : listWeight (fun p => weight p.1) (columns.zip values) = listWeight weight columns := by
      rw [← listWeight_map, List.map_fst_zip hlength.1.le]
    have hsnd : listWeight (fun p => p.2.weight) (columns.zip values) = listWeight Literal.weight values := by
      rw [← listWeight_map, List.map_snd_zip hlength.1.ge]
    have := keyword_weight hinsert
    have := keyword_weight hinto
    have := ident_weight htable
    have := parens_weight (fun _ _ _ => ident_weight) hcolumns
    have := keyword_weight hvalues
    have := parens_weight (fun _ _ _ => literal_weight) hliterals
    have hsix : weight Keyword.insert.text = 6 ∧ weight Keyword.into.text = 4 ∧ weight Keyword.values.text = 6 := by decide
    rw [Statement.weight, hfst, hsnd]
    omega
  · cases h

/-- An `UPDATE` is not heavier than its tokens. -/
theorem parseUpdate_weight {reserved : List Char → Bool} {ts : List Token} {stmt : Statement}
    (h : parseUpdate reserved ts = some stmt) : stmt.weight ≤ cost ts := by
  simp only [parseUpdate, Option.bind_eq_bind, Option.bind_eq_some_iff] at h
  obtain ⟨ts₁, hupdate, ⟨table, ts₂⟩, htable, ts₃, hset, ⟨set, ts₄⟩, hpairs, ⟨cond, ts₅⟩, hcond, h⟩ := h
  dsimp only at *
  split at h
  · cases h
    have := keyword_weight hupdate
    have := ident_weight htable
    have := keyword_weight hset
    have := separated_weight (fun _ _ _ => assignment_weight) hpairs
    have hcond' : (cond.elim 0 fun p => 5 + pairWeight p) ≤ cost ts₄ := by
      unfold condition at hcond
      split at hcond
      · rename_i hwhere
        simp only [Option.map_eq_some_iff, Prod.mk.injEq] at hcond
        obtain ⟨⟨p, us⟩, hp, rfl, rfl⟩ := hcond
        have := keyword_weight hwhere
        have := assignment_weight hp
        have hfive : weight Keyword.where.text = 5 := by decide
        simp only [Option.elim_some]
        omega
      · cases hcond
        exact Nat.zero_le _
    have hsix : weight Keyword.update.text = 6 ∧ weight Keyword.set.text = 3 := by decide
    rw [Statement.weight]
    omega
  · cases h

/-- **A statement weighs no more than its text.** -/
theorem read_weight {reserved : List Char → Bool} {text : List Char} {stmt : Statement}
    (h : read reserved text = some stmt) : stmt.weight ≤ weight text := by
  simp only [read, Option.bind_eq_some_iff, Option.or_eq_some_iff] at h
  obtain ⟨ts, hts, h⟩ := h
  refine le_trans ?_ (lex_weight hts)
  rcases h with h | ⟨-, h⟩
  · exact parseInsert_weight h
  · exact parseUpdate_weight h

/-! ## Plain statements -/

/-- The text of a literal in a plain statement. -/
def Literal.text : Literal → List Char
  | .str s => quote :: (s ++ [quote])
  | .int n => (if n < 0 then ['-'] else []) ++ Nat.toDigits 10 n.natAbs
  | .null => Keyword.null.text

/-- Whether the text of a literal means the literal. -/
def Literal.plain : Literal → Bool
  | .str s => verbatim s
  | .int _ => true
  | .null => true

/-- The tokens of a literal in a plain statement. -/
def Literal.tokens : Literal → List Token
  | .str s => [.str s]
  | .int n => (if n < 0 then [.sym '-'] else []) ++ [.num (Nat.toDigits 10 n.natAbs)]
  | .null => [.word Keyword.null.text]

/-- A keyword is a word. -/
theorem isWord_keyword (k : Keyword) : isWord k.text = true := by
  cases k <;> decide

/-- A negative number is two tokens. -/
theorem lex_minus (n : ℕ) {rest : List Char} (h : Breaks rest) :
    lex ('-' :: (Nat.toDigits 10 n ++ rest)) =
      (lex rest).map ([Token.sym '-', .num (Nat.toDigits 10 n)] ++ ·) := by
  have hnext : next ('-' :: (Nat.toDigits 10 n ++ rest)) =
      some (some (.sym '-'), Nat.toDigits 10 n ++ rest) := by
    have hcomment : afterComment ('-' :: (Nat.toDigits 10 n ++ rest)) = none := by
      -- a digit follows, no second dash
      cases hds : Nat.toDigits 10 n with
      | nil => exact absurd hds Nat.toDigits_ne_nil
      | cons c ds =>
          have hc : c.isDigit = true :=
            Nat.isDigit_of_mem_toDigits (b := 10) (n := n) (by decide) (by decide) (by rw [hds]; simp)
          unfold afterComment
          split
          · rename_i heq; cases heq
          · rename_i heq; cases heq; cases hc
          · rename_i heq; cases heq
          · rfl
    rw [next, if_neg (by decide), hcomment]
    rfl
  rw [lex_of_next hnext, lex_digits n h, Option.map_map]
  rfl

/-- A plain literal is lexed to its tokens. -/
theorem lex_literal {l : Literal} (hl : l.plain = true) {rest : List Char} (h : Breaks rest) :
    lex (l.text ++ rest) = (lex rest).map (l.tokens ++ ·) := by
  cases l with
  | str s =>
      show lex (quote :: (s ++ [quote] ++ rest)) = _
      rw [List.append_assoc, List.singleton_append, lex_str hl h]
      rfl
  | int n =>
      rw [Literal.text, Literal.tokens]
      split
      · exact lex_minus _ h
      · exact lex_digits _ h
  | null => exact lex_word (isWord_keyword .null) h

/-- The items of a list with commas between them. -/
def commas {α : Type} (f : α → List Char) : List α → List Char
  | [] => []
  | x :: xs => f x ++ xs.flatMap fun y => ',' :: f y

/-- The tokens of a list with commas between its items. -/
def commaTokens {α : Type} (g : α → List Token) : List α → List Token
  | [] => []
  | x :: xs => g x ++ xs.flatMap fun y => .sym ',' :: g y

/-- The text of the images of a list. -/
theorem commas_map {α β : Type} (f : β → List Char) (g : α → β) (l : List α) :
    commas f (l.map g) = commas (fun x => f (g x)) l := by
  cases l with
  | nil => rfl
  | cons x l => rw [List.map_cons, commas, commas, List.flatMap_map]

/-- The text of a list depends on its items. -/
theorem commas_congr {α : Type} {f g : α → List Char} {l : List α} (h : ∀ x ∈ l, f x = g x) :
    commas f l = commas g l := by
  cases l with
  | nil => rfl
  | cons x l =>
      rw [commas, commas, h x List.mem_cons_self]
      congr 1
      apply List.flatMap_congr
      intro y hy
      rw [h y (List.mem_cons_of_mem x hy)]

/-- A list with a comma after every item, without the last comma. -/
theorem dropLast_flatMap {α : Type} (f : α → List Char) (xs : List α) :
    (xs.flatMap fun x => f x ++ [',']).dropLast = commas f xs := by
  have hshift : ∀ ys : List α, ',' :: ys.flatMap (fun y => f y ++ [',']) =
      ys.flatMap (fun y => ',' :: f y) ++ [','] := by
    intro ys
    induction ys with
    | nil => rfl
    | cons y ys ih => simp [← ih]
  cases xs with
  | nil => rfl
  | cons x xs =>
      rw [List.flatMap_cons, List.append_assoc, List.singleton_append, hshift, ← List.append_assoc,
        List.dropLast_concat]
      rfl

/-- The weight of a list with commas. -/
theorem weight_commas {α : Type} (f : α → List Char) (xs : List α) :
    weight (commas f xs) = listWeight (fun x => weight (f x)) xs := by
  cases xs with
  | nil => rfl
  | cons x xs =>
      have hcomma : charWeight ',' = 1 := rfl
      rw [commas, weight_append, listWeight_cons, List.flatMap, weight_flatten, List.map_map]
      simp only [Function.comp_def, weight_cons, hcomma]

section Lists

variable {α : Type} {f : α → List Char} {g : α → List Token} {xs : List α} {rest : List Char}

/-- The items behind the first one are lexed to theirs. -/
theorem lex_flatMap_comma (hf : ∀ x ∈ xs, ∀ rest, Breaks rest → lex (f x ++ rest) = (lex rest).map (g x ++ ·))
    (h : Breaks rest) :
    Breaks ((xs.flatMap fun y => ',' :: f y) ++ rest) ∧
    lex ((xs.flatMap fun y => ',' :: f y) ++ rest) =
      (lex rest).map ((xs.flatMap fun y => Token.sym ',' :: g y) ++ ·) := by
  induction xs with
  | nil => exact ⟨h, Option.map_id'.symm⟩
  | cons x xs ih =>
      obtain ⟨hbreaks, hlex⟩ := ih fun y hy => hf y (List.mem_cons_of_mem x hy)
      refine ⟨breaks_cons (by simp) _, ?_⟩
      rw [List.flatMap_cons, List.append_assoc, List.cons_append, lex_symbol (by simp),
        hf x List.mem_cons_self _ hbreaks, hlex, Option.map_map, Option.map_map]
      congr 1
      funext ts
      simp

/-- A list with commas is lexed to the tokens of its items. -/
theorem lex_commas (hf : ∀ x ∈ xs, ∀ rest, Breaks rest → lex (f x ++ rest) = (lex rest).map (g x ++ ·))
    (h : Breaks rest) : lex (commas f xs ++ rest) = (lex rest).map (commaTokens g xs ++ ·) := by
  cases xs with
  | nil => exact Option.map_id'.symm
  | cons x xs =>
      obtain ⟨hbreaks, hlex⟩ := lex_flatMap_comma (fun y hy => hf y (List.mem_cons_of_mem x hy)) h
      rw [commas, List.append_assoc, hf x List.mem_cons_self _ hbreaks, hlex, Option.map_map]
      congr 1
      funext ts
      simp [commaTokens]

end Lists

/-- What may follow an item in a plain statement: no string, which would be joined, and no comma. -/
def Stops (ts : List Token) : Prop := ∀ t ∈ ts.head?, (∀ s, t ≠ .str s) ∧ t ≠ .sym ','

/-- A word ends a list. -/
theorem stops_word (w : List Char) (ts : List Token) : Stops (.word w :: ts) := by
  intro t ht
  cases ht
  simp

/-- A closing bracket ends a list. -/
theorem stops_close (ts : List Token) : Stops (.sym ')' :: ts) := by
  intro t ht
  cases ht
  simp

/-- What may follow an item of a list. -/
def Follows (ts : List Token) : Prop := ∀ t ∈ ts.head?, ∀ s, t ≠ .str s

/-- A literal is read back from its tokens. -/
theorem literal_tokens (l : Literal) {ts : List Token} (h : Follows ts) :
    literal (l.tokens ++ ts) = some (l, ts) := by
  cases l with
  | str s =>
      have hjoined : joined ts = ([], ts) := by
        cases ts with
        | nil => rfl
        | cons t ts =>
            cases t with
            | str u => exact absurd rfl (h _ rfl u)
            | _ => rfl
      show some (Literal.str (s ++ (joined ts).1), (joined ts).2) = _
      rw [hjoined, List.append_nil]
  | int n =>
      rw [Literal.tokens]
      split
      · show (if '-' = '-' then some (Literal.int (-(Nat.ofDigitChars 10 (Nat.toDigits 10 n.natAbs) 0 : ℕ)), ts)
          else none) = _
        rw [if_pos rfl, Nat.ofDigitChars_ten_toDigits]
        have : -(n.natAbs : ℤ) = n := by omega
        rw [this]
      · show some (Literal.int (Nat.ofDigitChars 10 (Nat.toDigits 10 n.natAbs) 0), ts) = _
        rw [Nat.ofDigitChars_ten_toDigits]
        have : (n.natAbs : ℤ) = n := by omega
        rw [this]
  | null => rfl

/-- A name that an unquoted identifier can be. -/
def isIdentifier (reserved : List Char → Bool) (w : List Char) : Bool := isWord w && !reserved w

/-- An identifier is a word. -/
theorem isWord_of_isIdentifier {reserved : List Char → Bool} {w : List Char}
    (h : isIdentifier reserved w = true) : isWord w = true :=
  (Bool.and_eq_true_iff.mp h).1

/-- And it is not reserved. -/
theorem not_reserved_of_isIdentifier {reserved : List Char → Bool} {w : List Char}
    (h : isIdentifier reserved w = true) : reserved w = false := by
  simpa using (Bool.and_eq_true_iff.mp h).2

section Lists

variable {α : Type} {item : List Token → Option (α × List Token)} {g : α → List Token} {xs : List α}
  {ts : List Token}

/-- The items behind the first one are read back. -/
theorem more_tokens (hitem : ∀ x ∈ xs, ∀ ts, Follows ts → item (g x ++ ts) = some (x, ts)) (h : Stops ts)
    {n : ℕ} (hn : xs.length ≤ n) :
    Follows ((xs.flatMap fun y => .sym ',' :: g y) ++ ts) ∧
    more item n ((xs.flatMap fun y => .sym ',' :: g y) ++ ts) = some (xs, ts) := by
  induction xs generalizing n with
  | nil =>
      refine ⟨fun t ht => (h t ht).1, ?_⟩
      rw [List.flatMap_nil, List.nil_append]
      unfold more
      split
      · rename_i c us
        have hc : c ≠ ',' := by
          rintro rfl
          exact (h _ rfl).2 rfl
        rw [if_neg hc]
      · rfl
  | cons x xs ih =>
      cases n with
      | zero => simp at hn
      | succ n =>
          obtain ⟨hfollows, hmore⟩ := ih (fun y hy => hitem y (List.mem_cons_of_mem x hy))
            (Nat.le_of_succ_le_succ hn)
          refine ⟨fun t ht => by cases ht; simp, ?_⟩
          rw [List.flatMap_cons, List.append_assoc, List.cons_append, more, if_pos rfl,
            hitem x List.mem_cons_self _ hfollows, Option.bind_some, hmore]
          rfl

/-- Every item brings a comma at least. -/
theorem length_le_flatMap (xs : List α) :
    xs.length ≤ (xs.flatMap fun y => Token.sym ',' :: g y).length := by
  induction xs with
  | nil => exact le_rfl
  | cons x xs ih =>
      simp only [List.flatMap_cons, List.length_append, List.length_cons]
      omega

/-- A list with commas is read back. -/
theorem separated_tokens (hitem : ∀ x ∈ xs, ∀ ts, Follows ts → item (g x ++ ts) = some (x, ts)) (h : Stops ts)
    (hne : xs ≠ []) : separated item (commaTokens g xs ++ ts) = some (xs, ts) := by
  cases xs with
  | nil => exact absurd rfl hne
  | cons x xs =>
      have hn : xs.length ≤ ((xs.flatMap fun y => .sym ',' :: g y) ++ ts).length := by
        rw [List.length_append]
        exact (length_le_flatMap xs).trans (Nat.le_add_right _ _)
      obtain ⟨hfollows, hmore⟩ := more_tokens (fun y hy => hitem y (List.mem_cons_of_mem x hy)) h hn
      rw [commaTokens, List.append_assoc, separated, hitem x List.mem_cons_self _ hfollows, Option.bind_some,
        hmore]
      rfl

/-- A list between brackets is read back. -/
theorem parens_tokens (hitem : ∀ x ∈ xs, ∀ ts, Follows ts → item (g x ++ ts) = some (x, ts))
    (hg : ∀ x ts, symbol ')' (g x ++ ts) = none) (ts : List Token) :
    parens item (.sym '(' :: (commaTokens g xs ++ .sym ')' :: ts)) = some (xs, ts) := by
  have hopen : symbol '(' (.sym '(' :: (commaTokens g xs ++ .sym ')' :: ts)) =
      some (commaTokens g xs ++ .sym ')' :: ts) := rfl
  rw [parens, hopen, Option.bind_some]
  cases xs with
  | nil => rfl
  | cons x xs =>
      have hnone : symbol ')' (commaTokens g (x :: xs) ++ .sym ')' :: ts) = none := by
        rw [commaTokens, List.append_assoc, hg]
      rw [hnone]
      dsimp only
      rw [separated_tokens hitem (stops_close ts) (by simp)]
      rfl

end Lists

/-- The text `column=literal`. -/
def pairText (p : List Char × Literal) : List Char := p.1 ++ '=' :: p.2.text

/-- The plain text of an `INSERT`. -/
def insertText (table : List Char) (pairs : List (List Char × Literal)) : List Char :=
  Keyword.insert.text ++ ' ' :: (Keyword.into.text ++ ' ' :: (table ++ ' ' :: '(' ::
    (commas id (pairs.map Prod.fst) ++ ')' :: ' ' :: (Keyword.values.text ++ ' ' :: '(' ::
      (commas Literal.text (pairs.map Prod.snd) ++ [')'])))))

/-- The plain text of an `UPDATE` with a condition. -/
def updateText (table : List Char) (set : List (List Char × Literal)) (cond : List Char × Literal) :
    List Char :=
  Keyword.update.text ++ ' ' :: (table ++ ' ' :: (Keyword.set.text ++ ' ' :: (commas pairText set ++
    ' ' :: (Keyword.where.text ++ ' ' :: pairText cond))))

section Plain

variable {reserved : List Char → Bool} {table : List Char} {pairs : List (List Char × Literal)}

/-- A keyword before a blank is a token. -/
theorem lex_keyword (k : Keyword) (rest : List Char) :
    lex (k.text ++ ' ' :: rest) = (lex rest).map (.word k.text :: ·) := by
  rw [lex_word (isWord_keyword k) (breaks_cons (by decide) rest), lex_space]

/-- A keyword is read back. -/
theorem keyword_word (k : Keyword) (ts : List Token) : keyword k (.word k.text :: ts) = some ts := by
  have hk : isKeyword k k.text = true := by cases k <;> decide
  rw [keyword, if_pos hk]

/-- An identifier is read back. -/
theorem ident_word {w : List Char} (h : isIdentifier reserved w = true) (ts : List Token) :
    ident reserved (.word w :: ts) = some (w, ts) := by
  rw [ident, not_reserved_of_isIdentifier h]
  rfl

/-- The tokens of `column=literal`. -/
def pairTokens (p : List Char × Literal) : List Token := .word p.1 :: .sym '=' :: p.2.tokens

/-- An assignment is lexed to its tokens. -/
theorem lex_pairText {p : List Char × Literal} (hp : isIdentifier reserved p.1 = true ∧ p.2.plain = true)
    {rest : List Char} (h : Breaks rest) : lex (pairText p ++ rest) = (lex rest).map (pairTokens p ++ ·) := by
  rw [pairText, List.append_assoc, List.cons_append,
    lex_word (isWord_of_isIdentifier hp.1) (breaks_cons (by decide) _), lex_symbol (by decide),
    lex_literal hp.2 h, Option.map_map, Option.map_map]
  rfl

/-- An assignment is read back. -/
theorem assignment_tokens {p : List Char × Literal} (hp : isIdentifier reserved p.1 = true) {ts : List Token}
    (h : Follows ts) : assignment reserved (pairTokens p ++ ts) = some (p, ts) := by
  have hsymbol : symbol '=' (.sym '=' :: (p.2.tokens ++ ts)) = some (p.2.tokens ++ ts) := rfl
  rw [pairTokens, List.cons_append, List.cons_append, assignment, ident_word hp]
  dsimp only [Option.bind_eq_bind, Option.bind_some]
  rw [hsymbol]
  dsimp only [Option.bind_some]
  rw [literal_tokens p.2 h]
  rfl

/-- The tokens of a plain `INSERT`. -/
def insertTokens (table : List Char) (pairs : List (List Char × Literal)) : List Token :=
  .word Keyword.insert.text :: .word Keyword.into.text :: .word table :: .sym '(' ::
    (commaTokens (fun w => [.word w]) (pairs.map Prod.fst) ++ .sym ')' ::
    .word Keyword.values.text :: .sym '(' :: (commaTokens Literal.tokens (pairs.map Prod.snd) ++ [.sym ')']))

/-- The tokens of a plain `UPDATE`. -/
def updateTokens (table : List Char) (set : List (List Char × Literal)) (cond : List Char × Literal) :
    List Token :=
  .word Keyword.update.text :: .word table :: .word Keyword.set.text ::
    (commaTokens pairTokens set ++ .word Keyword.where.text :: pairTokens cond)

/-- An `INSERT` is lexed to its tokens. -/
theorem lex_insertText (htable : isIdentifier reserved table = true)
    (hpairs : ∀ p ∈ pairs, isIdentifier reserved p.1 = true ∧ p.2.plain = true) :
    lex (insertText table pairs) = some (insertTokens table pairs) := by
  have hcolumns : ∀ w ∈ pairs.map Prod.fst, ∀ rest, Breaks rest →
      lex (id w ++ rest) = (lex rest).map (([.word w] : List Token) ++ ·) := by
    intro w hw rest h
    obtain ⟨p, hp, rfl⟩ := List.mem_map.mp hw
    exact lex_word (isWord_of_isIdentifier (hpairs p hp).1) h
  have hvalues : ∀ l ∈ pairs.map Prod.snd, ∀ rest, Breaks rest →
      lex (l.text ++ rest) = (lex rest).map (l.tokens ++ ·) := by
    intro l hl rest h
    obtain ⟨p, hp, rfl⟩ := List.mem_map.mp hl
    exact lex_literal (hpairs p hp).2 h
  have hend : lex [')'] = some [.sym ')'] := rfl
  rw [insertText, lex_keyword, lex_keyword,
    lex_word (isWord_of_isIdentifier htable) (breaks_cons (by decide) _), lex_space, lex_symbol (by decide),
    lex_commas hcolumns (breaks_cons (by decide) _), lex_symbol (by decide), lex_space, lex_keyword,
    lex_symbol (by decide), lex_commas hvalues (breaks_cons (by decide) _), hend]
  rfl

/-- An `INSERT` is read back. -/
theorem parseInsert_tokens (htable : isIdentifier reserved table = true)
    (hpairs : ∀ p ∈ pairs, isIdentifier reserved p.1 = true) :
    parseInsert reserved (insertTokens table pairs) = some (.insert table pairs) := by
  have hcolumns : ∀ w ∈ pairs.map Prod.fst, ∀ ts, Follows ts →
      ident reserved ([.word w] ++ ts) = some (w, ts) := by
    intro w hw ts _
    obtain ⟨p, hp, rfl⟩ := List.mem_map.mp hw
    exact ident_word (hpairs p hp) ts
  have hliteral : ∀ (l : Literal) ts, symbol ')' (l.tokens ++ ts) = none := by
    intro l ts
    cases l with
    | int n => rw [Literal.tokens]; split <;> rfl
    | _ => rfl
  rw [parseInsert, insertTokens]
  simp only [Option.bind_eq_bind]
  rw [keyword_word, Option.bind_some, keyword_word, Option.bind_some, ident_word htable, Option.bind_some]
  dsimp only
  rw [parens_tokens hcolumns (fun _ _ => rfl), Option.bind_some]
  dsimp only
  rw [keyword_word, Option.bind_some, parens_tokens (fun l _ ts h => literal_tokens l h) hliteral [],
    Option.bind_some]
  dsimp only
  rw [if_pos ⟨by simp, rfl⟩, ← List.zip_of_prod rfl rfl]

/-- **A plain `INSERT` is read as itself.** -/
theorem read_insertText (htable : isIdentifier reserved table = true)
    (hpairs : ∀ p ∈ pairs, isIdentifier reserved p.1 = true ∧ p.2.plain = true) :
    read reserved (insertText table pairs) = some (.insert table pairs) := by
  rw [read, lex_insertText htable hpairs, Option.bind_some,
    parseInsert_tokens htable fun p hp => (hpairs p hp).1]
  rfl

variable {cond : List Char × Literal}

/-- An `UPDATE` is lexed to its tokens. -/
theorem lex_updateText (htable : isIdentifier reserved table = true)
    (hpairs : ∀ p ∈ pairs, isIdentifier reserved p.1 = true ∧ p.2.plain = true)
    (hcond : isIdentifier reserved cond.1 = true ∧ cond.2.plain = true) :
    lex (updateText table pairs cond) = some (updateTokens table pairs cond) := by
  have hend : lex (pairText cond) = some (pairTokens cond) := by
    have h := lex_pairText hcond breaks_nil
    rw [List.append_nil] at h
    rw [h]
    exact congrArg some (List.append_nil _)
  rw [updateText, lex_keyword, lex_word (isWord_of_isIdentifier htable) (breaks_cons (by decide) _), lex_space,
    lex_keyword, lex_commas (fun p hp rest h => lex_pairText (hpairs p hp) h) (breaks_cons (by decide) _),
    lex_space, lex_keyword, hend]
  rfl

/-- An `UPDATE` is read back. -/
theorem parseUpdate_tokens (htable : isIdentifier reserved table = true)
    (hpairs : ∀ p ∈ pairs, isIdentifier reserved p.1 = true) (hne : pairs ≠ [])
    (hcond : isIdentifier reserved cond.1 = true) :
    parseUpdate reserved (updateTokens table pairs cond) = some (.update table pairs (some cond)) := by
  have hwhere : condition reserved (.word Keyword.where.text :: pairTokens cond) = some (some cond, []) := by
    have h := assignment_tokens hcond (show Follows [] from fun t ht => by cases ht)
    rw [List.append_nil] at h
    rw [condition, keyword_word]
    dsimp only
    rw [h]
    rfl
  rw [parseUpdate, updateTokens]
  simp only [Option.bind_eq_bind]
  rw [keyword_word, Option.bind_some, ident_word htable, Option.bind_some]
  dsimp only
  rw [keyword_word, Option.bind_some,
    separated_tokens (fun p hp ts h => assignment_tokens (hpairs p hp) h) (stops_word _ _) hne, Option.bind_some]
  dsimp only
  rw [hwhere]
  rfl

/-- **A plain `UPDATE` of at least one column is read as itself.** -/
theorem read_updateText (htable : isIdentifier reserved table = true)
    (hpairs : ∀ p ∈ pairs, isIdentifier reserved p.1 = true ∧ p.2.plain = true) (hne : pairs ≠ [])
    (hcond : isIdentifier reserved cond.1 = true ∧ cond.2.plain = true) :
    read reserved (updateText table pairs cond) = some (.update table pairs (some cond)) := by
  rw [read, lex_updateText htable hpairs hcond, Option.bind_some,
    parseUpdate_tokens htable (fun p hp => (hpairs p hp).1) hne hcond.1]
  rfl

end Plain

/-- An `UPDATE` sets at least one column. -/
theorem set_ne_nil_of_read {reserved : List Char → Bool} {text table : List Char}
    {set : List (List Char × Literal)} {cond : Option (List Char × Literal)}
    (h : read reserved text = some (.update table set cond)) : set ≠ [] := by
  simp only [read, Option.bind_eq_some_iff, Option.or_eq_some_iff] at h
  obtain ⟨ts, -, h⟩ := h
  rcases h with h | ⟨-, h⟩
  · simp only [parseInsert, Option.bind_eq_bind, Option.bind_eq_some_iff] at h
    obtain ⟨ts₁, -, ts₂, -, ⟨table, ts₃⟩, -, ⟨columns, ts₄⟩, -, ts₅, -, ⟨values, ts₆⟩, -, h⟩ := h
    dsimp only at h
    split at h <;> cases h
  · simp only [parseUpdate, Option.bind_eq_bind, Option.bind_eq_some_iff] at h
    obtain ⟨ts₁, -, ⟨table, ts₂⟩, -, ts₃, -, ⟨set, ts₄⟩, hset, ⟨cond, ts₅⟩, -, h⟩ := h
    dsimp only at h
    split at h
    · cases h
      simp only [separated, Option.bind_eq_some_iff, Option.map_eq_some_iff, Prod.mk.injEq] at hset
      obtain ⟨p, -, q, -, rfl, -⟩ := hset
      simp
    · cases h

end Mysql
