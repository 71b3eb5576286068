/-
# Escaped lines and the stored nodes of a cluster

`ssdb-master/src/util/strings.h`: `str_escape` and `str_unescape`; `util/line.h`: `LineEncoder` and
`LineDecoder`; `cluster_store.cpp`: a node is stored as six lines.

An escaped text has no raw newline, and what is read of it is the string again, as long as the text has
fewer than `2^31` bytes: the sizes are cast to `int`, and what is left of a longer text is another string
(`strUnescape_strEscape_iff`).  The same bound holds for the text of all lines (`readsBack_iff`) and for
that of a stored node (`keepsNode_iff`).

`char` is signed, and a `std::string` may have any length.
-/
import DoudizhuBackend.Ssdb.Cluster
import DoudizhuBackend.Ssdb.Hash
import Mathlib.Algebra.Order.BigOperators.Group.List

namespace Ssdb

/-! ## `str_escape` and `str_unescape` -/

/-- `hex[d]`. -/
def hexDigit (d : ℕ) : Byte := (ascii "0123456789abcdef").getD d 0

/-- The cases of `str_escape`. -/
def escapeByte (c : Byte) : Bytes :=
  if c = chr '\r' then ascii "\\r"
  else if c = chr '\n' then ascii "\\n"
  else if c = chr '\t' then ascii "\\t"
  else if c = chr '\\' then ascii "\\\\"
  else if c = chr ' ' then [c]
  else if chr '!' ≤ c ∧ c ≤ chr '~' then [c]
  else ascii "\\x" ++ [hexDigit (c.val / 16), hexDigit (c.val % 16)]

/-- `str_escape` with a size: a loop over that many bytes. -/
def escapeLoop (s : Bytes) (size : ℤ) : Bytes := (s.take size.toNat).flatMap escapeByte

/-- `str_escape`, on the `int` of the size. -/
def strEscape (s : Bytes) : Bytes := escapeLoop s (toInt s.length)

/-- `hex_int`. -/
def hexInt (c : Byte) : ℤ :=
  if chr '0' ≤ c ∧ c ≤ chr '9' then (c.val : ℤ) - 48
  -- a `char` behind 127 is negative
  else (c.val : ℤ).bmod 256 - 97 + 10

/-- `(char)((hex_int(c3) << 4) + hex_int(c4))`. -/
def hexByte (c3 c4 : Byte) : Byte := Fin.ofNat 256 ((hexInt c3 * 16 + hexInt c4) % 256).toNat

/-- What the letter behind a backslash stands for. -/
def unescapeLetter (c2 : Byte) : Byte :=
  if c2 = chr 'a' then 7
  else if c2 = chr 'b' then 8
  else if c2 = chr 'f' then 12
  else if c2 = chr 'v' then 11
  else if c2 = chr 'r' then chr '\r'
  else if c2 = chr 'n' then chr '\n'
  else if c2 = chr 't' then chr '\t'
  else c2

/-- The loop of `str_unescape` over the bytes that are left. -/
def unescapeLoop : Bytes → Bytes
  | [] => []
  | c :: s =>
      if c ≠ chr '\\' then c :: unescapeLoop s
      else
        match s with
        | [] => []
        | c2 :: s =>
            if c2 = chr 'x' then
              match s with
              | [] => []
              -- one byte is not enough, and is read as it stands
              | [c3] => unescapeLoop [c3]
              | c3 :: c4 :: s => hexByte c3 c4 :: unescapeLoop s
            else unescapeLetter c2 :: unescapeLoop s

/-- `str_unescape`. -/
def strUnescape (s : Bytes) : Bytes := unescapeLoop (s.take (toInt s.length).toNat)

/-! ## `LineEncoder` and `LineDecoder` -/

/-- A value that a line holds. -/
inductive LineValue where
  | string (data : Bytes)
  | int (data : {z : ℤ // IsInt32 z})
  | int64 (data : {z : ℤ // IsInt64 z})

/-- `LineEncoder`. -/
structure LineEncoder where
  val : Bytes

namespace LineEncoder

/-- An encoder without lines. -/
def new : LineEncoder := ⟨[]⟩

/-- `write` of a string. -/
def write (enc : LineEncoder) (data : Bytes) : LineEncoder := ⟨enc.val ++ strEscape data ++ [chr '\n']⟩

/-- `write` of an `int` or an `int64_t`. -/
def writeInt (enc : LineEncoder) (data : ℤ) : LineEncoder := enc.write (str data)

/-- `write` of a value of either kind. -/
def writeValue (enc : LineEncoder) : LineValue → LineEncoder
  | .string data => enc.write data
  | .int data => enc.writeInt data
  | .int64 data => enc.writeInt data

/-- The calls of `write` for a list of values. -/
def writeAll (enc : LineEncoder) (vs : List LineValue) : LineEncoder := vs.foldl writeValue enc

end LineEncoder

/-- The positions are `int`s between 0 and `len`. -/
structure LineDecoder where
  buf : Bytes
  len : ℤ
  spos : ℕ
  epos : ℕ

namespace LineDecoder

/-- A decoder at the front of a text. -/
def new (s : Bytes) : LineDecoder := ⟨s, toInt s.length, 0, 0⟩

/-- `while(epos < len && buf[epos] != '\n')`; the first argument bounds the number of steps. -/
def lineEnd (buf : Bytes) (len : ℤ) : ℕ → ℕ → ℕ
  | 0, epos => epos
  | fuel + 1, epos =>
      if (epos : ℤ) < len ∧ buf[epos]? ≠ some (chr '\n') then lineEnd buf len fuel (epos + 1) else epos

/-- `read` of a string, none for -1. -/
def read (d : LineDecoder) : Option Bytes × LineDecoder :=
  let epos := lineEnd d.buf d.len (d.len - d.epos).toNat d.epos
  if d.len ≤ epos ∨ d.buf[epos]? ≠ some (chr '\n') then (none, { d with epos := epos })
  else
    (some (strUnescape ((d.buf.take epos).drop d.spos)), { d with spos := epos + 1, epos := epos + 1 })

/-- `read` of an `int`: `str_to_int` of the line, whatever its error. -/
def readInt (d : LineDecoder) : Option {z : ℤ // IsInt32 z} × LineDecoder :=
  let (line, d) := d.read
  (line.map fun line => ⟨atoi line, isInt32_atoi line⟩, d)

/-- `read` of an `int64_t`. -/
def readInt64 (d : LineDecoder) : Option {z : ℤ // IsInt64 z} × LineDecoder :=
  let (line, d) := d.read
  (line.map fun line => ⟨strtoll line, isInt64_strtoll line⟩, d)

end LineDecoder

/-! ## What is read of an escaped text -/

/-- The number of bytes that stand for one. -/
def escapeWidth (c : Byte) : ℕ :=
  if c = chr '\r' ∨ c = chr '\n' ∨ c = chr '\t' ∨ c = chr '\\' then 2
  else if chr ' ' ≤ c ∧ c ≤ chr '~' then 1
  else 4

/-- The length of the escaped text. -/
def escapedSize (s : Bytes) : ℕ := (s.map escapeWidth).sum

@[simp]
theorem escapedSize_nil : escapedSize [] = 0 := rfl

/-- The size of a text grows with each byte. -/
@[simp]
theorem escapedSize_cons (c : Byte) (s : Bytes) : escapedSize (c :: s) = escapeWidth c + escapedSize s := by
  simp [escapedSize]

/-- How many bytes an escaped byte takes. -/
theorem length_escapeByte : ∀ c : Byte, (escapeByte c).length = escapeWidth c := by decide +kernel

/-- One to four. -/
theorem escapeWidth_bounds : ∀ c : Byte, 1 ≤ escapeWidth c ∧ escapeWidth c ≤ 4 := by decide +kernel

/-- No line end among them. -/
theorem newline_notMem_escapeByte : ∀ c : Byte, chr '\n' ∉ escapeByte c := by decide +kernel

/-- How long an escaped text is. -/
theorem length_flatMap_escapeByte (s : Bytes) : (s.flatMap escapeByte).length = escapedSize s := by
  simp only [List.length_flatMap, length_escapeByte, escapedSize]

/-- It is not shorter than the text. -/
theorem length_le_escapedSize (s : Bytes) : s.length ≤ escapedSize s := by
  induction s with
  | nil => exact le_refl 0
  | cons c s ih =>
      have := (escapeWidth_bounds c).1
      rw [List.length_cons, escapedSize_cons]
      omega

/-- And not longer than four times the text. -/
theorem escapedSize_le (s : Bytes) : escapedSize s ≤ 4 * s.length := by
  induction s with
  | nil => exact le_refl 0
  | cons c s ih =>
      have := (escapeWidth_bounds c).2
      rw [List.length_cons, escapedSize_cons]
      omega

/-- The three forms that a byte is written in. -/
theorem escapeByte_cases : ∀ c : Byte,
    (escapeByte c = [c] ∧ c ≠ chr '\\') ∨
    (∃ l ∈ ascii "rnt\\", escapeByte c = [chr '\\', l] ∧ l ≠ chr 'x' ∧ unescapeLetter l = c) ∨
    (escapeByte c = [chr '\\', chr 'x', hexDigit (c.val / 16), hexDigit (c.val % 16)] ∧
      hexByte (hexDigit (c.val / 16)) (hexDigit (c.val % 16)) = c ∧
      hexDigit (c.val / 16) ≠ chr '\\' ∧ hexDigit (c.val / 16) ≠ c) := by
  decide +kernel

@[simp]
theorem unescapeLoop_nil : unescapeLoop [] = [] := rfl

/-- A byte that is not escaped is kept. -/
theorem unescapeLoop_plain {c : Byte} (hc : c ≠ chr '\\') (s : Bytes) :
    unescapeLoop (c :: s) = c :: unescapeLoop s := by
  rw [unescapeLoop.eq_def]
  exact if_pos hc

/-- A letter behind a backslash. -/
theorem unescapeLoop_letter {l : Byte} (hl : l ≠ chr 'x') (s : Bytes) :
    unescapeLoop (chr '\\' :: l :: s) = unescapeLetter l :: unescapeLoop s := by
  rw [unescapeLoop.eq_def]
  exact (if_neg (by simp)).trans (if_neg hl)

/-- Two hexadecimal digits behind a backslash. -/
theorem unescapeLoop_hex (c3 c4 : Byte) (s : Bytes) :
    unescapeLoop (chr '\\' :: chr 'x' :: c3 :: c4 :: s) = hexByte c3 c4 :: unescapeLoop s := rfl

/-- One byte is read back, whatever follows. -/
theorem unescapeLoop_escapeByte (c : Byte) (s : Bytes) :
    unescapeLoop (escapeByte c ++ s) = c :: unescapeLoop s := by
  rcases escapeByte_cases c with ⟨heq, hne⟩ | ⟨l, -, heq, hne, hl⟩ | ⟨heq, hhex, -, -⟩
  · rw [heq]
    exact unescapeLoop_plain hne s
  · rw [heq, ← hl]
    exact unescapeLoop_letter hne s
  · rw [heq]
    have hread := unescapeLoop_hex (hexDigit (c.val / 16)) (hexDigit (c.val % 16)) s
    rwa [hhex] at hread

/-- An escaped text is read back. -/
theorem unescapeLoop_escape (s : Bytes) : unescapeLoop (s.flatMap escapeByte) = s := by
  induction s with
  | nil => exact unescapeLoop_nil
  | cons c s ih => rw [List.flatMap_cons, unescapeLoop_escapeByte, ih]

/-- A backslash at the end is dropped. -/
theorem unescapeLoop_backslash : unescapeLoop [chr '\\'] = [] := rfl

/-- A byte whose text is cut off is not read. -/
theorem unescapeLoop_cut {c : Byte} {n : ℕ} (hn : n < (escapeByte c).length) (s : Bytes) :
    unescapeLoop ((escapeByte c).take n) ≠ c :: s := by
  rcases escapeByte_cases c with ⟨heq, -⟩ | ⟨l, -, heq, -, -⟩ | ⟨heq, -, hback, hdigit⟩
  all_goals
    rw [heq] at hn ⊢
    simp only [List.length_cons, List.length_nil] at hn
  · obtain rfl : n = 0 := by omega
    simp
  · obtain rfl | rfl : n = 0 ∨ n = 1 := by omega
    · simp
    · simp [unescapeLoop_backslash]
  · obtain rfl | rfl | rfl | rfl : n = 0 ∨ n = 1 ∨ n = 2 ∨ n = 3 := by omega
    · simp
    · simp [unescapeLoop_backslash]
    · exact (List.cons_ne_nil c s).symm
    · show unescapeLoop [hexDigit (c.val / 16)] ≠ c :: s
      rw [unescapeLoop_plain hback]
      simp [hdigit]

/-- What is read of a part of the escaped text is another string. -/
theorem unescapeLoop_take {s : Bytes} : ∀ {n : ℕ}, n < escapedSize s →
    unescapeLoop ((s.flatMap escapeByte).take n) ≠ s := by
  induction s with
  | nil => intro n hn; exact absurd hn (Nat.not_lt_zero n)
  | cons c s ih =>
      intro n hn
      rw [escapedSize_cons, ← length_escapeByte] at hn
      rw [List.flatMap_cons, List.take_append]
      by_cases hcut : n < (escapeByte c).length
      · rw [Nat.sub_eq_zero_of_le hcut.le, List.take_zero, List.append_nil]
        exact unescapeLoop_cut hcut s
      · rw [List.take_of_length_le (by omega), unescapeLoop_escapeByte]
        intro heq
        exact ih (by omega) (List.cons.inj heq).2

/-! ## The casts of the sizes -/

/-- The `int` of the size does no harm to a short text. -/
theorem strEscape_eq {s : Bytes} (h : s.length < 2 ^ 31) : strEscape s = s.flatMap escapeByte := by
  rw [strEscape, escapeLoop, toInt_of_lt h, Int.toNat_natCast, List.take_length]

/-- Nor does it when the text is read. -/
theorem strUnescape_eq {s : Bytes} (h : s.length < 2 ^ 31) : strUnescape s = unescapeLoop s := by
  rw [strUnescape, toInt_of_lt h, Int.toNat_natCast, List.take_length]

/-- There is no line end in an escaped text. -/
theorem newline_notMem_strEscape (s : Bytes) : chr '\n' ∉ strEscape s := by
  rw [strEscape, escapeLoop, List.mem_flatMap]
  rintro ⟨c, -, hc⟩
  exact newline_notMem_escapeByte c hc

/-- What is left of a string that is too long is not the string. -/
theorem length_unescapeLoop_le : ∀ s : Bytes, (unescapeLoop s).length ≤ s.length := by
  intro s
  fun_induction unescapeLoop s <;> simp_all <;> omega

/-- **A string comes back exactly when its escaped text has fewer than `2^31` bytes.** -/
theorem strUnescape_strEscape_iff (s : Bytes) :
    strUnescape (strEscape s) = s ↔ escapedSize s < 2 ^ 31 := by
  have hlength := length_le_escapedSize s
  have hescape := length_flatMap_escapeByte s
  constructor
  · intro hback
    by_contra hsize
    have hshort : s.length < 2 ^ 31 := by
      have hread := length_unescapeLoop_le ((strEscape s).take (toInt (strEscape s).length).toNat)
      rw [← strUnescape, hback, List.length_take] at hread
      have := toInt_lt (strEscape s).length
      omega
    rw [strEscape_eq hshort, strUnescape] at hback
    have := toInt_lt (s.flatMap escapeByte).length
    exact unescapeLoop_take (by omega) hback
  · intro hsize
    rw [strEscape_eq (by omega), strUnescape_eq (by omega), unescapeLoop_escape]

/-! ## Lines -/

namespace LineDecoder

/-- What is left to read. -/
def rest (d : LineDecoder) : Bytes := (d.buf.take d.len.toNat).drop d.epos

/-- Between two lines. -/
def Ready (d : LineDecoder) : Prop := d.spos = d.epos ∧ d.len ≤ d.buf.length

/-- A new decoder is ready. -/
theorem ready_new (s : Bytes) : (new s).Ready := by
  simp only [Ready, new, true_and]
  exact toInt_le s.length

/-- A new decoder has the whole text before it. -/
theorem rest_new (s : Bytes) : (new s).rest = s.take (toInt s.length).toNat := by
  simp only [rest, new, List.drop_zero]

/-- The loop stops behind the bytes that are no newline. -/
theorem lineEnd_eq {buf : Bytes} {len : ℤ} (hlen : len ≤ buf.length) : ∀ {fuel epos : ℕ},
    len - epos ≤ fuel → lineEnd buf len fuel epos =
      epos + (((buf.take len.toNat).drop epos).takeWhile (· ≠ chr '\n')).length := by
  intro fuel
  induction fuel with
  | zero =>
      intro epos hfuel
      rw [List.drop_eq_nil_of_le (by rw [List.length_take]; omega)]
      rfl
  | succ fuel ih =>
      intro epos hfuel
      rw [lineEnd]
      by_cases hlt : (epos : ℤ) < len
      · have hin : epos < (buf.take len.toNat).length := by rw [List.length_take]; omega
        have hget : buf[epos]? = some (buf.take len.toNat)[epos] := by
          rw [List.getElem_take, List.getElem?_eq_getElem]
        rw [List.drop_eq_getElem_cons hin, hget]
        by_cases hnewline : (buf.take len.toNat)[epos] = chr '\n'
        · rw [if_neg (by simp [hnewline]), List.takeWhile_cons_of_neg (by simp [hnewline])]
          rfl
        · rw [if_pos ⟨hlt, by simpa using hnewline⟩, ih (by omega),
            List.takeWhile_cons_of_pos (by simpa using hnewline), List.length_cons]
          omega
      · rw [if_neg (fun h => hlt h.1), List.drop_eq_nil_of_le (by rw [List.length_take]; omega)]
        rfl

/-- Without a newline nothing is read. -/
theorem read_none {d : LineDecoder} (hd : d.Ready) (h : chr '\n' ∉ d.rest) : d.read.1 = none := by
  have hall : ∀ b ∈ d.rest, (b ≠ chr '\n') = true := by
    intro b hb
    simp only [ne_eq, eq_iff_iff, iff_true]
    rintro rfl
    exact h hb
  have hend : lineEnd d.buf d.len (d.len - d.epos).toNat d.epos = d.epos + d.rest.length := by
    rw [lineEnd_eq hd.2 (Int.self_le_toNat _), ← rest, List.takeWhile_eq_self_iff.mpr (by simpa using hall)]
  have hlength : d.rest.length = min d.len.toNat d.buf.length - d.epos := by
    rw [rest, List.length_drop, List.length_take]
  have hlen := hd.2
  rw [read, if_pos]
  left
  rw [hend, hlength]
  omega

/-- A line is read up to its newline. -/
theorem read_some {d : LineDecoder} (hd : d.Ready) {line t : Bytes} (hline : chr '\n' ∉ line)
    (h : d.rest = line ++ chr '\n' :: t) :
    d.read.1 = some (strUnescape line) ∧ d.read.2.Ready ∧ d.read.2.rest = t := by
  have hend : lineEnd d.buf d.len (d.len - d.epos).toNat d.epos = d.epos + line.length := by
    rw [lineEnd_eq hd.2 (Int.self_le_toNat _), ← rest, h, List.takeWhile_append_of_pos,
      List.takeWhile_cons_of_neg (by simp), List.append_nil]
    intro b hb
    simp only [ne_eq, decide_not, Bool.not_eq_eq_eq_not, Bool.not_true, decide_eq_false_iff_not]
    rintro rfl
    exact hline hb
  have hlength := congrArg List.length h
  rw [rest, List.length_drop, List.length_take, List.length_append, List.length_cons] at hlength
  have hlen := hd.2
  -- the bytes from the start of the line on
  have hdrop : d.buf.drop d.epos = line ++ chr '\n' :: (t ++ d.buf.drop d.len.toNat) := by
    have hsplit : d.buf = d.buf.take d.len.toNat ++ d.buf.drop d.len.toNat :=
      (List.take_append_drop _ _).symm
    rw [hsplit, List.drop_append_of_le_length (by rw [List.length_take]; omega), ← rest, h]
    simp
  have hget : d.buf[d.epos + line.length]? = some (chr '\n') := by
    rw [← List.getElem?_drop, hdrop]
    simp
  rw [read, hend, if_neg (by rw [hget]; simp; omega)]
  refine ⟨?_, ⟨rfl, hd.2⟩, ?_⟩
  · dsimp only
    rw [hd.1, ← List.take_drop, hdrop, List.take_left']
    rfl
  · show (d.buf.take d.len.toNat).drop (d.epos + line.length + 1) = t
    rw [Nat.add_assoc, ← List.drop_drop, ← rest, h, ← List.drop_drop, List.drop_left]
    rfl

end LineDecoder

/-! ## Reading back what was written -/

/-- The string that is written: `::str(data)` for an integer. -/
def LineValue.text : LineValue → Bytes
  | .string data => data
  | .int data => str data
  | .int64 data => str data

/-- The two kinds of values. -/
inductive LineKind where
  | string
  | int
  | int64

/-- The kind of a value. -/
def LineValue.kind : LineValue → LineKind
  | .string _ => .string
  | .int _ => .int
  | .int64 _ => .int64

/-- What is read of a line. -/
def LineKind.value : LineKind → Bytes → LineValue
  | .string, line => .string line
  | .int, line => .int ⟨atoi line, isInt32_atoi line⟩
  | .int64, line => .int64 ⟨strtoll line, isInt64_strtoll line⟩

/-- `read` into a variable of the kind. -/
def LineDecoder.readValue (d : LineDecoder) : LineKind → Option LineValue × LineDecoder
  | .string => let (v, d) := d.read; (v.map .string, d)
  | .int => let (v, d) := d.readInt; (v.map .int, d)
  | .int64 => let (v, d) := d.readInt64; (v.map .int64, d)

/-- The calls of `read` for a list of kinds. -/
def LineDecoder.readAll : List LineKind → LineDecoder → List (Option LineValue) × LineDecoder
  | [], d => ([], d)
  | kind :: kinds, d =>
      let (v, d) := d.readValue kind
      let (vs, d) := readAll kinds d
      (v :: vs, d)

/-- The length of the text of all lines. -/
def linesSize (vs : List LineValue) : ℕ := (vs.map fun v => escapedSize v.text + 1).sum

/-- What is written for the values. -/
def linesText (vs : List LineValue) : Bytes := vs.flatMap fun v => strEscape v.text ++ [chr '\n']

/-- The decoder gives the values that were written, and nothing else. -/
def ReadsBack (vs : List LineValue) : Prop :=
  let (rs, d) := (LineDecoder.new (LineEncoder.new.writeAll vs).val).readAll (vs.map LineValue.kind)
  rs = vs.map some ∧ d.read.1 = none

/-- The lines of a list, from the first on. -/
theorem linesText_cons (v : LineValue) (vs : List LineValue) :
    linesText (v :: vs) = strEscape v.text ++ chr '\n' :: linesText vs := by
  simp [linesText]

/-- An encoder appends the lines of the values. -/
theorem LineEncoder.writeAll_val (vs : List LineValue) : ∀ enc : LineEncoder,
    (enc.writeAll vs).val = enc.val ++ linesText vs := by
  induction vs with
  | nil => intro enc; exact (List.append_nil _).symm
  | cons v vs ih =>
      intro enc
      have hline : (enc.writeValue v).val = enc.val ++ strEscape v.text ++ [chr '\n'] := by
        cases v <;> rfl
      show ((enc.writeValue v).writeAll vs).val = _
      rw [ih, hline, linesText_cons]
      simp

/-- A new encoder brings the lines of the values. -/
theorem LineEncoder.writeAll_new (vs : List LineValue) : (new.writeAll vs).val = linesText vs :=
  writeAll_val vs new

/-- How long the lines are. -/
theorem linesText_fits {vs : List LineValue} (h : ∀ v ∈ vs, escapedSize v.text < 2 ^ 31) :
    (linesText vs).length = linesSize vs := by
  induction vs with
  | nil => rfl
  | cons v vs ih =>
      rw [List.forall_mem_cons] at h
      have hlength := length_le_escapedSize v.text
      rw [linesText_cons, List.length_append, List.length_cons, ih h.2, strEscape_eq (by omega),
        length_flatMap_escapeByte, linesSize, linesSize, List.map_cons, List.sum_cons]
      omega

/-- The text of an `int64_t` is short. -/
theorem length_str_le {z : ℤ} (h : IsInt64 z) : (str z).length ≤ 20 := by
  obtain ⟨hlow, hhigh⟩ := h
  have hdigits : (decimal z.natAbs).length ≤ 18 + 1 := length_decimal_le (by omega)
  rw [str]
  split
  · rw [List.length_cons]
    omega
  · omega

/-- A value is right when its text comes back. -/
theorem LineKind.value_text (v : LineValue) : v.kind.value v.text = v := by
  cases v with
  | string data => rfl
  | int z => exact congrArg LineValue.int (Subtype.ext (atoi_str z.2))
  | int64 z => exact congrArg LineValue.int64 (Subtype.ext (strtoll_str z.2))

/-- A line gives its value exactly when its text has fewer than `2^31` bytes; that of an integer has. -/
theorem value_unescape_iff (v : LineValue) :
    v.kind.value (strUnescape (strEscape v.text)) = v ↔ escapedSize v.text < 2 ^ 31 := by
  have hint : ∀ {z : ℤ}, IsInt64 z → escapedSize (str z) < 2 ^ 31 := by
    intro z hz
    have hlength := length_str_le hz
    have hsize := escapedSize_le (str z)
    omega
  constructor
  · intro hback
    cases v with
    | string data => exact (strUnescape_strEscape_iff data).mp (LineValue.string.inj hback)
    | int z =>
        obtain ⟨hlow, hhigh⟩ := z.2
        exact hint ⟨by omega, by omega⟩
    | int64 z => exact hint z.2
  · intro hsize
    rw [(strUnescape_strEscape_iff v.text).mpr hsize, LineKind.value_text]

namespace LineDecoder

variable {vs : List LineValue} {d : LineDecoder}

/-- A value is a line, read in its kind. -/
theorem readValue_eq (d : LineDecoder) (kind : LineKind) :
    d.readValue kind = (d.read.1.map kind.value, d.read.2) := by
  cases kind
  · rfl
  · exact Prod.ext (Option.map_map ..) rfl
  · exact Prod.ext (Option.map_map ..) rfl

/-- The values, from the first on. -/
theorem readAll_cons (kind : LineKind) (kinds : List LineKind) (d : LineDecoder) :
    readAll (kind :: kinds) d =
      (d.read.1.map kind.value :: (readAll kinds d.read.2).1, (readAll kinds d.read.2).2) := by
  simp only [readAll, readValue_eq]

/-- The values come out of the text of their lines. -/
theorem readAll_linesText (hvs : ∀ v ∈ vs, escapedSize v.text < 2 ^ 31) : ∀ {d : LineDecoder}, d.Ready →
    d.rest = linesText vs → (readAll (vs.map LineValue.kind) d).1 = vs.map some ∧
      (readAll (vs.map LineValue.kind) d).2.Ready ∧ (readAll (vs.map LineValue.kind) d).2.rest = [] := by
  induction vs with
  | nil => exact fun hd hrest => ⟨rfl, hd, hrest⟩
  | cons v vs ih =>
      intro d hd hrest
      rw [List.forall_mem_cons] at hvs
      rw [linesText_cons] at hrest
      obtain ⟨hline, hready, hnext⟩ := read_some hd (newline_notMem_strEscape v.text) hrest
      obtain ⟨hvalues, hlast⟩ := ih hvs.2 hready hnext
      rw [List.map_cons, List.map_cons, readAll_cons, hline, hvalues, Option.map_some,
        (value_unescape_iff v).mpr hvs.1]
      exact ⟨rfl, hlast⟩

/-- A part of a text that has a newline has the first line of the text. -/
theorem starts_with_line {line p t : Bytes} (hline : chr '\n' ∉ line) (hp : p <+: line ++ chr '\n' :: t)
    (hnewline : chr '\n' ∈ p) : ∃ u, p = line ++ chr '\n' :: u := by
  obtain ⟨r, hr⟩ := hp
  rcases List.append_eq_append_iff.mp hr with ⟨u, hu, -⟩ | ⟨u, rfl, hu⟩
  · exact absurd (hu ▸ List.mem_append_left u hnewline) hline
  · cases u with
    | nil =>
        rw [List.append_nil] at hnewline
        exact absurd hnewline hline
    | cons b u =>
        obtain ⟨hb, -⟩ := List.cons.inj hu
        exact ⟨u, by rw [hb]⟩

/-- A decoder that gives all values has seen the whole text, whose lines are not too long. -/
theorem fits_of_readAll : ∀ {d : LineDecoder}, d.Ready → d.rest <+: linesText vs →
    (readAll (vs.map LineValue.kind) d).1 = vs.map some →
    d.rest = linesText vs ∧ ∀ v ∈ vs, escapedSize v.text < 2 ^ 31 := by
  induction vs with
  | nil => exact fun _ hrest _ => ⟨List.prefix_nil.mp hrest, by simp⟩
  | cons v vs ih =>
      intro d hd hrest hvalues
      rw [List.map_cons, List.map_cons, readAll_cons, List.cons.injEq] at hvalues
      rw [linesText_cons] at hrest ⊢
      by_cases hnewline : chr '\n' ∈ d.rest
      · -- the first line of what is left is that of the value
        obtain ⟨t, ht⟩ := starts_with_line (newline_notMem_strEscape v.text) hrest hnewline
        rw [ht] at hrest
        obtain ⟨hline, hready, hnext⟩ := read_some hd (newline_notMem_strEscape v.text) ht
        rw [hline, Option.map_some, Option.some.injEq, value_unescape_iff] at hvalues
        have hprefix : d.read.2.rest <+: linesText vs := by
          rw [hnext]
          simpa using hrest
        obtain ⟨hsame, hfits⟩ := ih hready hprefix hvalues.2
        rw [ht, ← hnext, hsame]
        exact ⟨rfl, List.forall_mem_cons.mpr ⟨hvalues.1, hfits⟩⟩
      · rw [read_none hd hnewline] at hvalues
        simp at hvalues

end LineDecoder

/-- A text that is not too long has lines that are not. -/
theorem fits_of_linesSize {vs : List LineValue} (h : linesSize vs < 2 ^ 31) :
    ∀ v ∈ vs, escapedSize v.text < 2 ^ 31 := by
  intro v hv
  have hle := List.le_sum_of_mem (List.mem_map_of_mem (f := fun v => escapedSize v.text + 1) hv)
  rw [← linesSize] at hle
  omega

/-- The decoder of a part of the text gives all values only if it is the whole text and not too long. -/
theorem size_of_readAll {vs : List LineValue} {buf : Bytes} (hbuf : buf <+: linesText vs)
    (h : (LineDecoder.readAll (vs.map LineValue.kind) (LineDecoder.new buf)).1 = vs.map some) :
    linesSize vs < 2 ^ 31 := by
  have hrest := LineDecoder.rest_new buf
  obtain ⟨hwhole, hfits⟩ := LineDecoder.fits_of_readAll (LineDecoder.ready_new buf)
    (hrest ▸ (List.take_prefix _ _).trans hbuf) h
  rw [← linesText_fits hfits, ← hwhole, hrest, List.length_take]
  have := toInt_lt buf.length
  omega

/-- The decoder of the whole text gives the values and is at its end. -/
theorem readAll_of_size {vs : List LineValue} (h : linesSize vs < 2 ^ 31) :
    let r := LineDecoder.readAll (vs.map LineValue.kind) (LineDecoder.new (linesText vs))
    r.1 = vs.map some ∧ r.2.Ready ∧ r.2.rest = [] := by
  have hfits := fits_of_linesSize h
  have hlength := linesText_fits hfits
  have hrest := LineDecoder.rest_new (linesText vs)
  rw [toInt_of_lt (by omega), Int.toNat_natCast, List.take_length] at hrest
  exact LineDecoder.readAll_linesText hfits (LineDecoder.ready_new _) hrest

/-- **The decoder gives back the values exactly when the text has fewer than `2^31` bytes.** -/
theorem readsBack_iff (vs : List LineValue) : ReadsBack vs ↔ linesSize vs < 2 ^ 31 := by
  rw [ReadsBack, LineEncoder.writeAll_new]
  constructor
  · rintro ⟨hvalues, -⟩
    exact size_of_readAll (List.prefix_refl _) hvalues
  · intro hsize
    obtain ⟨hvalues, hready, hnone⟩ := readAll_of_size hsize
    exact ⟨hvalues, LineDecoder.read_none hready (by simp [hnone])⟩

/-! ## The stored nodes of a cluster -/

namespace ClusterStore

/-- `KV_NODE_LIST_KEY`. -/
def kvNodeListKey : Bytes := ascii "KV_NODE_LIST"

/-- `save_kv_node`: the result and the database.  `Bytes` casts the size of the value; with a negative size
there is no result, since leveldb cannot append that many bytes. -/
def saveKvNode (db : Db) (node : Node) : Option (ℤ × Db) :=
  let enc := LineEncoder.new
  let enc := enc.writeInt node.id
  let enc := enc.writeInt node.status
  let enc := enc.write node.range.first
  let enc := enc.write node.range.last
  let enc := enc.write node.ip
  let enc := enc.writeInt node.port
  let size := toInt enc.val.length
  if size < 0 then none
  else
    let (ret, ws) := hset db kvNodeListKey (str node.id) (enc.val.take size.toNat) .sync
    some (if ret = -1 then -1 else 0, db.apply ws)

/-- The members of a node keep their values where nothing is read. -/
def readNode (dec : LineDecoder) (node : Node) : Node :=
  let (id, dec) := dec.readInt
  let (status, dec) := dec.readInt
  let (first, dec) := dec.read
  let (last, dec) := dec.read
  let (ip, dec) := dec.read
  let (port, _) := dec.readInt
  { id := id.elim node.id Subtype.val
    status := status.elim node.status Subtype.val
    range := ⟨first.getD node.range.first, last.getD node.range.last⟩
    ip := ip.getD node.ip
    port := port.elim node.port Subtype.val }

/-- `load_kv_node`: the result and `*node`. -/
def loadKvNode (db : Db) (id : ℤ) (node : Node) : ℤ × Node :=
  match hget db kvNodeListKey (str id) with
  | none => (0, node)
  | some val => (1, readNode (LineDecoder.new val) node)

end ClusterStore

/-- The numbers of a node are `int`s. -/
structure Node.HasInts (node : Node) : Prop where
  id : IsInt32 node.id
  status : IsInt32 node.status
  port : IsInt32 node.port

/-- The values of the lines of a node. -/
def Node.lines (node : Node) (h : node.HasInts) : List LineValue :=
  [.int ⟨node.id, h.id⟩, .int ⟨node.status, h.status⟩, .string node.range.first, .string node.range.last,
    .string node.ip, .int ⟨node.port, h.port⟩]

/-- The length of the text of a node. -/
def Node.size (node : Node) : ℕ :=
  escapedSize (str node.id) + escapedSize (str node.status) + escapedSize node.range.first +
    escapedSize node.range.last + escapedSize node.ip + escapedSize (str node.port) + 6

/-- The node is saved, and loading gives it whatever was in the memory. -/
def KeepsNode (db : Db) (node : Node) : Prop :=
  ∃ db', ClusterStore.saveKvNode db node = some (0, db') ∧
    ∀ old, ClusterStore.loadKvNode db' node.id old = (1, node)

namespace Node

/-- The size of a node is that of its lines. -/
theorem linesSize_lines (node : Node) (h : node.HasInts) : linesSize (node.lines h) = node.size := by
  simp only [linesSize, lines, size, LineValue.text, List.map_cons, List.map_nil, List.sum_cons, List.sum_nil]
  omega

/-- A node that differs from this one in every member. -/
def other (node : Node) : Node :=
  ⟨node.id + 1, node.status + 1, ⟨0 :: node.range.first, 0 :: node.range.last⟩, 0 :: node.ip, node.port + 1⟩

end Node

/-- A number that is there is the one that was expected. -/
theorem eq_some_of_elim {o : Option {z : ℤ // IsInt32 z}} {z : ℤ} (hz : IsInt32 z)
    (h : o.elim (z + 1) Subtype.val = z) : o = some ⟨z, hz⟩ := by
  cases o with
  | none => exact absurd h (by simp)
  | some x => exact congrArg some (Subtype.ext h)

/-- A text that is there is the one that was expected. -/
theorem eq_some_of_getD {o : Option Bytes} {s : Bytes} (h : o.getD (0 :: s) = s) : o = some s := by
  cases o with
  | none => exact absurd h (by simp)
  | some t => exact congrArg some h

namespace ClusterStore

variable {db : Db} {node : Node} {val : Bytes}

/-- The node is read, whatever was in the memory, when all its lines are read right. -/
theorem readNode_iff (h : node.HasInts) (dec : LineDecoder) :
    (∀ old, readNode dec old = node) ↔
      (LineDecoder.readAll ((node.lines h).map LineValue.kind) dec).1 = (node.lines h).map some := by
  simp only [readNode, Node.lines, List.map_cons, List.map_nil, LineValue.kind, LineDecoder.readAll,
    LineDecoder.readValue]
  generalize dec.readInt = r1
  generalize r1.2.readInt = r2
  generalize r2.2.read = r3
  generalize r3.2.read = r4
  generalize r4.2.read = r5
  generalize r5.2.readInt = r6
  constructor
  · intro hload
    have hmembers := hload node.other
    obtain ⟨id, status, ⟨first, last⟩, ip, port⟩ := node
    simp only [Node.other, Node.mk.injEq, KeyRange.mk.injEq] at hmembers
    obtain ⟨hid, hstatus, ⟨hfirst, hlast⟩, hip, hport⟩ := hmembers
    rw [eq_some_of_elim h.id hid, eq_some_of_elim h.status hstatus, eq_some_of_getD hfirst,
      eq_some_of_getD hlast, eq_some_of_getD hip, eq_some_of_elim h.port hport]
    rfl
  · intro hread old
    simp only [List.cons.injEq, Option.map_eq_some_iff, LineValue.int.injEq, LineValue.string.injEq,
      exists_eq_right, and_true] at hread
    obtain ⟨hid, hstatus, hfirst, hlast, hip, hport⟩ := hread
    rw [hid, hstatus, hfirst, hlast, hip, hport]
    rfl

/-- The id of a node is a field of the list. -/
theorem isField_kvNodeListKey (h : node.HasInts) : IsField kvNodeListKey (str node.id) := by
  obtain ⟨hlow, hhigh⟩ := h.id
  have hlength := length_str_le (z := node.id) ⟨by omega, by omega⟩
  have hshort : kvNodeListKey.length ≤ 255 := by decide
  refine ⟨by decide, ?_, hshort, hlength.trans (by decide)⟩
  rw [str]
  split
  · exact List.cons_ne_nil _ _
  · exact decimal_ne_nil _

/-- What `save_kv_node` stores: the first bytes of the text, as many as its size is after the cast. -/
theorem saveKvNode_eq (db : Db) (h : node.HasInts) :
    saveKvNode db node =
      if toInt (linesText (node.lines h)).length < 0 then none
      else some (0, db.apply (hsetWrites db kvNodeListKey (str node.id)
        ((linesText (node.lines h)).take (toInt (linesText (node.lines h)).length).toNat) .sync)) := by
  have htext : ((((((LineEncoder.new.writeInt node.id).writeInt node.status).write node.range.first).write
      node.range.last).write node.ip).writeInt node.port).val = linesText (node.lines h) := by
    rw [← LineEncoder.writeAll_new]
    simp only [Node.lines, LineEncoder.writeAll, List.foldl_cons, List.foldl_nil, LineEncoder.writeValue]
  have hret : ∀ val, (hset db kvNodeListKey (str node.id) val .sync).1 ≠ -1 := by
    intro val
    rw [hset_ret, if_pos (isField_kvNodeListKey h)]
    split <;> decide
  simp only [saveKvNode, htext, hset_writes, if_neg (hret _)]

/-- **A node is kept exactly when its text has fewer than `2^31` bytes.** -/
theorem keepsNode_iff (db : Db) (h : node.HasInts) : KeepsNode db node ↔ node.size < 2 ^ 31 := by
  rw [← Node.linesSize_lines node h]
  have hstored : ∀ val, hget (db.apply (hsetWrites db kvNodeListKey (str node.id) val .sync)) kvNodeListKey
      (str node.id) = some val := by
    intro val
    rw [hget_apply_hsetWrites db (isField_kvNodeListKey h), if_pos ⟨rfl, rfl⟩]
  have hload : ∀ {db' : Db} {val : Bytes}, hget db' kvNodeListKey (str node.id) = some val → ∀ old,
      loadKvNode db' node.id old = (1, readNode (LineDecoder.new val) old) := by
    intro db' val hval old
    simp only [loadKvNode, hval]
  rw [KeepsNode, saveKvNode_eq db h]
  constructor
  · rintro ⟨db', hsave, hback⟩
    split at hsave
    · cases hsave
    · obtain ⟨-, rfl⟩ := Prod.mk.inj (Option.some.inj hsave)
      have hread := fun old => (Prod.mk.inj ((hload (hstored _) old).symm.trans (hback old))).2
      exact size_of_readAll (List.take_prefix _ _) ((readNode_iff h _).mp hread)
  · intro hsize
    have hlength := linesText_fits (fits_of_linesSize hsize)
    rw [toInt_of_lt (by omega), if_neg (by omega), Int.toNat_natCast, List.take_length]
    refine ⟨_, rfl, fun old => ?_⟩
    rw [hload (hstored _), (readNode_iff h _).mpr (readAll_of_size hsize).1]

end ClusterStore

/-- **Escaped lines come back exactly when their text has fewer than `2^31` bytes**: a string behind
`str_escape`, the values of a `LineEncoder`, and a node of the store. -/
theorem escaped_lines (s : Bytes) (vs : List LineValue) (db : Db) {node : Node} (h : node.HasInts) :
    (strUnescape (strEscape s) = s ↔ escapedSize s < 2 ^ 31) ∧
    (ReadsBack vs ↔ linesSize vs < 2 ^ 31) ∧
    (KeepsNode db node ↔ node.size < 2 ^ 31) :=
  ⟨strUnescape_strEscape_iff s, readsBack_iff vs, ClusterStore.keepsNode_iff db h⟩

/-- A node with a key range that ends in a byte to be escaped. -/
theorem escaped_lines_node :
    let node : Node := ⟨7, Node.SERVING, ⟨[], [97, 10, 0]⟩, ascii "127.0.0.1", 8888⟩
    node.HasInts ∧ strUnescape (strEscape [97, 10, 0]) = [97, 10, 0] ∧ ReadsBack [.string [97, 10, 0]] ∧
      KeepsNode OrderedMap.empty node := by
  have hints : Node.HasInts ⟨7, Node.SERVING, ⟨[], [97, 10, 0]⟩, ascii "127.0.0.1", 8888⟩ :=
    ⟨by decide, by decide, by decide⟩
  obtain ⟨hstring, hvalues, hnode⟩ :=
    escaped_lines [97, 10, 0] [.string [97, 10, 0]] OrderedMap.empty hints
  exact ⟨hints, hstring.mpr (by decide), hvalues.mpr (by decide), hnode.mpr (by decide)⟩

/-- Half a gigabyte of zeros: the escaped text has `2^31` bytes, and nothing is read of it. -/
theorem strUnescape_zeros :
    let s := List.replicate (2 ^ 29) (0 : Byte)
    escapedSize s = 2 ^ 31 ∧ strUnescape (strEscape s) ≠ s := by
  have hsize : escapedSize (List.replicate (2 ^ 29) (0 : Byte)) = 2 ^ 31 := by
    rw [escapedSize, List.map_replicate, List.sum_replicate]
    rfl
  exact ⟨hsize, fun hback => absurd ((strUnescape_strEscape_iff _).mp hback) (by omega)⟩

end Ssdb
