/-
# `ZRANGEBYSCORE` and `ZREVRANGEBYSCORE`

A client of Redis sends two bounds for the scores, each of them included, excluded or infinite, and with
`LIMIT` an offset and a count.  `convert_req` makes a `zscan` or a `zrscan` of it:

* an infinity becomes no bound, also one that no score satisfies;
* an excluded bound becomes the next integer, which is computed in an `int`;
* without `LIMIT` the count is 2000000000, and `proc_zscan` adds offset and count as `uint64_t`, also the
  count -1.

`redis_scores` says when the reply is what the client asked for.
-/
import DoudizhuBackend.Ssdb.RedisRanges

namespace Ssdb

open Segments

/-! ## The commands -/

/-- `proc_zscan` and `proc_zrscan`: with one more argument, the limit is an offset. -/
def procScan (scan : Bytes → Bytes → Bytes → Bytes → ℕ → List (Bytes × Bytes)) : Packet → List Bytes
  | _ :: name :: key :: scoreStart :: scoreEnd :: limit :: rest =>
      let (offset, limit) : ℕ × ℕ :=
        match rest with
        | [] => (0, strtoull limit)
        | count :: _ => (strtoull limit, (strtoull limit + strtoull count) % 2 ^ 64)
      ascii "ok" :: itemStrings ((scan name key scoreStart scoreEnd limit).drop offset)
  | _ => [ascii "client_error", ascii "wrong number of arguments"]

/-- `proc_zscan`. -/
def procZscan (db : Db) (req : Packet) : List Bytes := procScan (zscan db) req

/-- `proc_zrscan`. -/
def procZrscan (db : Db) (req : Packet) : List Bytes := procScan (zrscan db) req

/-! ## Requests -/

/-- The text is read as the number. -/
structure ReadsAs (t : Bytes) (n : ℤ) : Prop where
  ne_nil : t ≠ []
  whole : IsWhole t
  value : readInt t = n
  isInt64 : IsInt64 n

/-- A bound for scores. -/
inductive ScoreBound where
  | included (n : ℤ)
  | excluded (n : ℤ)
  | negInf
  | posInf

namespace ScoreBound

/-- How a client writes it. -/
def IsText (t : Bytes) : ScoreBound → Prop
  | included n => ReadsAs t n
  | excluded n => ∃ numeral, t = chr '(' :: numeral ∧ ReadsAs numeral n
  | negInf => t = ascii "-inf"
  | posInf => t = ascii "+inf"

/-- The score satisfies a lower bound. -/
def Above (s : ℤ) : ScoreBound → Prop
  | included n => n ≤ s
  | excluded n => n < s
  | negInf => True
  | posInf => False

/-- The score satisfies an upper bound. -/
def Below (s : ℤ) : ScoreBound → Prop
  | included n => s ≤ n
  | excluded n => s < n
  | negInf => False
  | posInf => True

instance decidableAbove (s : ℤ) : ∀ b : ScoreBound, Decidable (b.Above s)
  | included n => inferInstanceAs (Decidable (n ≤ s))
  | excluded n => inferInstanceAs (Decidable (n < s))
  | negInf => isTrue trivial
  | posInf => isFalse id

instance decidableBelow (s : ℤ) : ∀ b : ScoreBound, Decidable (b.Below s)
  | included n => inferInstanceAs (Decidable (s ≤ n))
  | excluded n => inferInstanceAs (Decidable (s < n))
  | negInf => isFalse id
  | posInf => isTrue trivial

/-- The score that is forwarded; `dir` is 1 for a lower bound and -1 for an upper one. -/
def forwarded (dir : ℤ) : ScoreBound → Option ℤ
  | included n => some n
  | excluded n => some ((n + dir).bmod (2 ^ 32))
  | negInf => none
  | posInf => none

end ScoreBound

/-- `LIMIT`; no count is the count -1. -/
structure Limit where
  offset : ℕ
  count : Option ℕ

/-- What a client asks for of the items between the bounds. -/
def limited (items : List (ℤ × Bytes)) : Option Limit → List (ℤ × Bytes)
  | none => items
  | some ⟨offset, none⟩ => items.drop offset
  | some ⟨offset, some n⟩ => (items.drop offset).take n

/-- The options of a request, in any order and spelling. -/
def AreOptions (limit : Option Limit) (options : List Bytes) : Prop :=
  ∃ before after, (∀ s ∈ before ++ after, RedisLink.toLower s = ascii "withscores") ∧
    match limit with
    | none => options = before ++ after
    | some l => ∃ word offset count, options = before ++ [word, offset, count] ++ after ∧
        RedisLink.toLower word = ascii "limit" ∧ ReadsAs offset l.offset ∧
        ReadsAs count (l.count.elim (-1) fun n => n)

/-! ## Texts -/

theorem mem_of_mem_unsigned {s : Bytes} {b : Byte} (h : b ∈ unsigned s) : b ∈ s := by
  have hdrop : ∀ c ∈ s.dropWhile isSpace, c ∈ s := fun c hc => (List.dropWhile_sublist _).subset hc
  unfold unsigned at h
  split at h
  · cases h
  · rename_i c t hcons
    apply hdrop
    rw [hcons]
    split at h
    · exact List.mem_cons_of_mem _ h
    · exact h

namespace ReadsAs

variable {t : Bytes} {n : ℤ}

theorem strtoll_eq (h : ReadsAs t n) : strtoll t = n := by
  have hint := h.isInt64
  rw [IsInt64] at hint
  rw [strtoll, h.value, min_eq_left (by omega), max_eq_right hint.1]

theorem strtoull_eq (h : ReadsAs t n) : strtoull t = (n % 2 ^ 64).toNat := by
  have hint := h.isInt64
  rw [IsInt64] at hint
  rw [strtoull, h.value, if_pos (by omega)]

theorem digits (h : ReadsAs t n) : unsigned t ≠ [] ∧ ∀ b ∈ unsigned t, isDigit b = true :=
  ((isWhole_iff t).mp h.whole).resolve_left h.ne_nil

/-- A number does not begin with a parenthesis. -/
theorem head_ne (h : ReadsAs t n) : t.head? ≠ some (chr '(') := by
  intro hhead
  obtain ⟨u, rfl⟩ := List.head?_eq_some_iff.mp hhead
  have hspace : isSpace (chr '(') = false := by decide
  have hunsigned : unsigned (chr '(' :: u) = chr '(' :: u := by
    rw [unsigned, List.dropWhile_cons_of_neg (by simp [hspace])]
    exact if_neg (by decide)
  have hdigit := h.digits.2
  rw [hunsigned] at hdigit
  exact absurd (hdigit _ List.mem_cons_self) (by decide)

/-- A word without digits is no number, in any spelling. -/
theorem toLower_ne (h : ReadsAs t n) {word : Bytes} (hword : ∀ b ∈ word, isDigit b = false) :
    RedisLink.toLower t ≠ word := by
  rintro rfl
  obtain ⟨b, u, hcons⟩ := List.exists_cons_of_ne_nil h.digits.1
  have hb : b ∈ unsigned t := hcons ▸ List.mem_cons_self
  have hdigit := h.digits.2 b hb
  -- the case of a digit does not change
  have hsame : (if 65 ≤ b.val ∧ b.val ≤ 90 then b + 32 else b) = b := by
    rw [if_neg]
    simp only [isDigit, Bool.and_eq_true, decide_eq_true_eq] at hdigit
    omega
  have hmem : b ∈ RedisLink.toLower t := by
    rw [RedisLink.toLower, List.mem_map]
    exact ⟨b, mem_of_mem_unsigned hb, hsame⟩
  rw [hword b hmem] at hdigit
  cases hdigit

theorem ne_inf (h : ReadsAs t n) : ¬ (t = ascii "-inf" ∨ t = ascii "+inf") := by
  have hneg : ∀ b ∈ RedisLink.toLower (ascii "-inf"), isDigit b = false := by decide +kernel
  have hpos : ∀ b ∈ RedisLink.toLower (ascii "+inf"), isDigit b = false := by decide +kernel
  rintro (rfl | rfl)
  · exact h.toLower_ne hneg rfl
  · exact h.toLower_ne hpos rfl

end ReadsAs

/-- The bound that a text of the forwarded command means. -/
def boundOf (t : Bytes) : Option ℤ := if t = [] then none else some (strtoll t)

theorem scoreOr_eq (t : Bytes) (default : ℤ) : scoreOr t default = (boundOf t).getD default := by
  rw [scoreOr, boundOf]
  split <;> rfl

theorem ScoreBound.IsText.ne_nil {b : ScoreBound} {t : Bytes} (h : b.IsText t) : t ≠ [] := by
  cases b with
  | included n => exact ReadsAs.ne_nil h
  | excluded n =>
      obtain ⟨numeral, rfl, -⟩ := h
      exact List.cons_ne_nil _ _
  | negInf =>
      rw [show t = ascii "-inf" from h]
      decide
  | posInf =>
      rw [show t = ascii "+inf" from h]
      decide

/-- **A bound is forwarded** as `ScoreBound.forwarded` says. -/
theorem boundOf_scoreBound {b : ScoreBound} {t : Bytes} (h : b.IsText t) (errno dir : ℤ) :
    boundOf (RedisLink.scoreBound errno dir t).1 = b.forwarded dir := by
  cases b with
  | included n =>
      have h : ReadsAs t n := h
      rw [RedisLink.scoreBound, if_neg h.ne_inf, if_neg h.head_ne, boundOf, if_neg h.ne_nil, h.strtoll_eq]
      rfl
  | excluded n =>
      obtain ⟨numeral, rfl, h⟩ := h
      have hinf : ¬ (chr '(' :: numeral = ascii "-inf" ∨ chr '(' :: numeral = ascii "+inf") := by
        rintro (heq | heq)
        · exact absurd (List.cons.inj heq).1 (by decide)
        · exact absurd (List.cons.inj heq).1 (by decide)
      have hint : IsInt64 ((n + dir).bmod (2 ^ 32)) := by
        have hlow := Int.le_bmod (x := n + dir) (m := 2 ^ 32) (by decide)
        have hhigh := Int.bmod_lt (x := n + dir) (m := 2 ^ 32) (by decide)
        rw [IsInt64]
        omega
      rw [RedisLink.scoreBound, if_neg hinf, List.head?_cons, if_pos rfl]
      simp only [strToInt, List.tail_cons, atoi, h.strtoll_eq, Int.bmod_add_bmod]
      rw [boundOf, if_neg (str_ne_nil _), strtoll_str hint]
      rfl
  | negInf =>
      rw [show t = ascii "-inf" from h, RedisLink.scoreBound, if_pos (Or.inl rfl)]
      rfl
  | posInf =>
      rw [show t = ascii "+inf" from h, RedisLink.scoreBound, if_pos (Or.inr rfl)]
      rfl

/-! ## Options -/

section Options

open RedisLink

theorem read_withscores {o : ScoreOptions} (ho : o.afterLimit = false) {s : Bytes}
    (hs : toLower s = ascii "withscores") : o.read s = { o with withscores := ascii "withscores" } := by
  simp [ScoreOptions.read, ho, hs]

theorem foldl_withscores (words : List Bytes) : ∀ {o : ScoreOptions}, o.afterLimit = false →
    (∀ s ∈ words, toLower s = ascii "withscores") →
      ∃ withscores, words.foldl ScoreOptions.read o = { o with withscores := withscores } := by
  induction words with
  | nil => exact fun _ _ => ⟨_, rfl⟩
  | cons s words ih =>
      intro o ho hwords
      rw [List.foldl_cons, read_withscores ho (hwords s List.mem_cons_self)]
      obtain ⟨withscores, heq⟩ := ih (o := { o with withscores := ascii "withscores" }) ho
        fun s hs => hwords s (List.mem_cons_of_mem _ hs)
      exact ⟨withscores, heq⟩

/-- A number is no word. -/
theorem read_number {t : Bytes} {n : ℤ} (h : ReadsAs t n) (o : ScoreOptions) :
    o.read t = if o.afterLimit then
      if o.offset = [] then { o with offset := t } else { o with count := t, afterLimit := false }
      else o := by
  have hwith : ∀ b ∈ ascii "withscores", isDigit b = false := by decide +kernel
  have hlimit : ∀ b ∈ ascii "limit", isDigit b = false := by decide +kernel
  simp only [ScoreOptions.read, if_neg (h.toLower_ne hwith), if_neg (h.toLower_ne hlimit)]

theorem read_limit {o : ScoreOptions} (ho : o.afterLimit = false) {s : Bytes}
    (hs : toLower s = ascii "limit") : o.read s = { o with afterLimit := true } := by
  have hne : ¬ ascii "limit" = ascii "withscores" := by decide +kernel
  simp only [ScoreOptions.read, ho, hs, if_neg hne]
  rfl

/-- The texts of offset and count; they are empty without `LIMIT`. -/
def LimitTexts (offset count : Bytes) : Option Limit → Prop
  | none => offset = [] ∧ count = []
  | some l => ReadsAs offset l.offset ∧ ReadsAs count (l.count.elim (-1) fun n => n)

/-- **What is read of the options**: offset and count, or none. -/
theorem foldl_options {limit : Option Limit} {options : List Bytes} (h : AreOptions limit options) :
    ∃ withscores offset count,
      options.foldl ScoreOptions.read ⟨false, [], [], []⟩ = ⟨false, withscores, offset, count⟩ ∧
        LimitTexts offset count limit := by
  obtain ⟨before, after, hwords, hoptions⟩ := h
  have hbefore : ∀ s ∈ before, toLower s = ascii "withscores" :=
    fun s hs => hwords s (List.mem_append_left _ hs)
  have hafter : ∀ s ∈ after, toLower s = ascii "withscores" :=
    fun s hs => hwords s (List.mem_append_right _ hs)
  obtain ⟨w, hw⟩ := foldl_withscores before (o := ⟨false, [], [], []⟩) rfl hbefore
  cases limit with
  | none =>
      have hoptions : options = before ++ after := hoptions
      obtain ⟨w', hw'⟩ := foldl_withscores after (o := ⟨false, w, [], []⟩) rfl hafter
      refine ⟨w', [], [], ?_, rfl, rfl⟩
      rw [hoptions, List.foldl_append, hw, hw']
  | some l =>
      obtain ⟨word, offset, count, heq, hword, hoffset, hcount⟩ := hoptions
      obtain ⟨w', hw'⟩ := foldl_withscores after (o := ⟨false, w, offset, count⟩) rfl hafter
      refine ⟨w', offset, count, ?_, hoffset, hcount⟩
      rw [heq, List.foldl_append, List.foldl_append, hw, List.foldl_cons, List.foldl_cons, List.foldl_cons,
        List.foldl_nil, read_limit rfl hword, read_number hoffset, read_number hcount]
      simp only [if_true, if_neg hoffset.ne_nil]
      exact hw'

/-- The offset and the limit of the walk. -/
def walkedLimit : Option Limit → ℕ × ℕ
  | none => (0, 2000000000)
  | some l => (l.offset, (l.offset + l.count.getD (2 ^ 64 - 1)) % 2 ^ 64)

/-- **The converted command.** -/
theorem procScan_convertReq (scan : Bytes → Bytes → Bytes → Bytes → ℕ → List (Bytes × Bytes))
    (toScore : ℤ → Bytes → ℤ × ℤ) (errno : ℤ) (name : Bytes) {cmd ssdbCmd : Bytes} {strategy : Strategy}
    {dir : ℤ}
    (hcmd : cmdTable (toLower cmd) = some (strategy, ssdbCmd))
    (hstrategy : (strategy = .zrangebyscore ∧ dir = 1) ∨ (strategy = .zrevrangebyscore ∧ dir = -1))
    {first last : ScoreBound} {firstText lastText : Bytes} (hfirst : first.IsText firstText)
    (hlast : last.IsText lastText) {limit : Option Limit} {options : List Bytes}
    (hoptions : AreOptions limit options) :
    ∃ low high, boundOf low = first.forwarded dir ∧ boundOf high = last.forwarded (-dir) ∧
      procScan scan (convertReq toScore errno (cmd :: name :: firstText :: lastText :: options)).1 =
        ascii "ok" ::
          itemStrings ((scan name [] low high (walkedLimit limit).2).drop (walkedLimit limit).1) := by
  obtain ⟨withscores, offset, count, hread, hlimit⟩ := foldl_options hoptions
  have hconvert : (convertByScore errno dir (cmd :: name :: firstText :: lastText :: options)).1 =
      [name, [], (scoreBound errno dir firstText).1,
        (scoreBound (scoreBound errno dir firstText).2 (-dir) lastText).1,
        if offset = [] then ascii "0" else offset, if count = [] then ascii "2000000000" else count,
        withscores] := by
    have hne : ¬ (firstText = [] ∨ lastText = []) :=
      not_or.mpr ⟨hfirst.ne_nil, hlast.ne_nil⟩
    simp only [convertByScore, hread, if_neg hne]
  have hreq : (convertReq toScore errno (cmd :: name :: firstText :: lastText :: options)).1 =
      ssdbCmd :: (convertByScore errno dir (cmd :: name :: firstText :: lastText :: options)).1 := by
    simp only [convertReq, List.headD_cons, hcmd]
    rcases hstrategy with ⟨rfl, rfl⟩ | ⟨rfl, rfl⟩
    · rfl
    · rfl
  -- the two numbers that `proc_zscan` reads
  have hnumbers : strtoull (if offset = [] then ascii "0" else offset) = (walkedLimit limit).1 ∧
      (strtoull (if offset = [] then ascii "0" else offset) +
        strtoull (if count = [] then ascii "2000000000" else count)) % 2 ^ 64 = (walkedLimit limit).2 := by
    cases limit with
    | none =>
        obtain ⟨rfl, rfl⟩ := hlimit
        decide +kernel
    | some l =>
        obtain ⟨hoffset, hcount⟩ := hlimit
        have hint := hoffset.isInt64
        rw [IsInt64] at hint
        have hfirst : ((l.offset : ℤ) % 2 ^ 64).toNat = l.offset := by omega
        rw [if_neg hoffset.ne_nil, if_neg hcount.ne_nil, hoffset.strtoull_eq, hcount.strtoull_eq, hfirst]
        refine ⟨rfl, ?_⟩
        have hint' := hcount.isInt64
        rw [IsInt64] at hint'
        rw [walkedLimit]
        cases hcases : l.count with
        | none => rfl
        | some n =>
            rw [hcases] at hint'
            simp only [Option.elim_some] at hint' ⊢
            have hcounted : ((n : ℤ) % 2 ^ 64).toNat = n := by omega
            rw [Option.getD_some, hcounted]
  refine ⟨_, _, boundOf_scoreBound hfirst errno dir,
    boundOf_scoreBound hlast (scoreBound errno dir firstText).2 (-dir), ?_⟩
  rw [hreq, hconvert, procScan, ← hnumbers.1, ← hnumbers.2]

end Options

/-! ## Places -/

/-- The places of the sorted list that the bounds mean: the number of members before the first one, and
of those up to the last one. -/
def askedPlaces (backward : Bool) (first last : ScoreBound) (L : List (ℤ × Bytes)) : ℕ × ℕ :=
  if backward then (L.countP fun p => ¬ first.Below p.1, L.countP fun p => last.Above p.1)
  else (L.countP fun p => ¬ first.Above p.1, L.countP fun p => last.Below p.1)

/-- The places that the forwarded bounds mean for the walk. -/
def walkedPlaces (backward : Bool) (first last : ScoreBound) (L : List (ℤ × Bytes)) : ℕ × ℕ :=
  if backward then
    let start : ℤ × Bytes := (first.forwarded (-1)).elim (2 ^ 63 - 1, []) fun s => (s, keyLast)
    let low := (last.forwarded 1).getD (-2 ^ 63)
    (L.countP fun p => ¬ itemLt p start, L.countP fun p => low ≤ p.1)
  else
    let low := (first.forwarded 1).getD (-2 ^ 63)
    let high := (last.forwarded (-1)).getD (2 ^ 63 - 1)
    (L.countP fun p => p.1 < low, L.countP fun p => p.1 ≤ high ∧ ¬ BeyondEnd high p)

/-- Two windows of places are the same, or both are empty. -/
def SameWindow (v w : ℕ × ℕ) : Prop := (v.2 ≤ v.1 ∧ w.2 ≤ w.1) ∨ v = w

/-- **When the reply is right**: the window that the client asks for is the one of the walk.  Without
`LIMIT` the walk ends after 2000000000 items; with an offset and the count -1 it does not reach the offset,
so that nothing is left only if nothing is asked for. -/
def ScoresRight (asked walked : ℕ × ℕ) : Option Limit → Prop
  | none => SameWindow asked (walked.1, min walked.2 (walked.1 + 2000000000))
  | some ⟨offset, none⟩ =>
      if offset = 0 then SameWindow asked (walked.1, min walked.2 (walked.1 + (2 ^ 64 - 1)))
      else asked.2 ≤ asked.1 + offset
  | some ⟨offset, some n⟩ =>
      SameWindow (asked.1 + offset, min asked.2 (asked.1 + offset + n))
        (walked.1 + offset, min walked.2 (walked.1 + offset + n))

/-- Segments and windows. -/
theorem segment_eq_iff_sameWindow {α : Type} {R : List α} (hR : R.Nodup) {a b c d : ℕ} (hb : b ≤ R.length)
    (hd : d ≤ R.length) : (R.take b).drop a = (R.take d).drop c ↔ SameWindow (c, d) (a, b) := by
  rw [segment_eq_iff hR, min_eq_left hb, min_eq_left hd, SameWindow, Prod.mk.injEq]
  constructor
  · rintro (⟨h, h'⟩ | ⟨rfl, rfl⟩)
    · exact Or.inl ⟨h', h⟩
    · exact Or.inr ⟨rfl, rfl⟩
  · rintro (⟨h, h'⟩ | ⟨rfl, rfl⟩)
    · exact Or.inl ⟨h', h⟩
    · exact Or.inr ⟨rfl, rfl⟩

/-- Offset and count fit. -/
def Limit.Fits (l : Limit) : Prop := l.offset < 2 ^ 63 ∧ ∀ n, l.count = some n → n < 2 ^ 63

theorem AreOptions.fits {l : Limit} {options : List Bytes} (h : AreOptions (some l) options) : l.Fits := by
  obtain ⟨before, after, -, word, offset, count, -, -, hoffset, hcount⟩ := h
  have hint := hoffset.isInt64
  have hint' := hcount.isInt64
  rw [IsInt64] at hint hint'
  refine ⟨by omega, ?_⟩
  intro n hn
  rw [hn, Option.elim_some] at hint'
  omega

/-- **The walk with its limit** is what is asked for exactly for the same windows. -/
theorem walk_eq_limited_iff {R : List (ℤ × Bytes)} (hR : R.Nodup) {a b a' b' : ℕ} (hb : b ≤ R.length)
    (hb' : b' ≤ R.length) (limit : Option Limit) (hlimit : ∀ l, limit = some l → l.Fits) :
    (((R.take b').drop a').take (walkedLimit limit).2).drop (walkedLimit limit).1 =
        limited ((R.take b).drop a) limit ↔ ScoresRight (a, b) (a', b') limit := by
  rw [take_segment, drop_segment]
  have hwalk : ∀ n, min b' (a' + n) ≤ R.length := fun n => (min_le_left _ _).trans hb'
  match limit, hlimit with
  | none, _ =>
      rw [limited, ScoresRight]
      exact segment_eq_iff_sameWindow hR (hwalk _) hb
  | some ⟨offset, none⟩, hlimit =>
      obtain ⟨hoffset, -⟩ := hlimit _ rfl
      rw [limited, drop_segment, segment_eq_iff_sameWindow hR (hwalk _) hb, ScoresRight]
      simp only [walkedLimit, Option.getD_none]
      split
      · rename_i hzero
        subst hzero
        rfl
      · rename_i hne
        have hmod : (offset + (2 ^ 64 - 1)) % 2 ^ 64 = offset - 1 := by
          simp only at hoffset
          omega
        rw [hmod, SameWindow, Prod.mk.injEq]
        omega
  | some ⟨offset, some n⟩, hlimit =>
      obtain ⟨hoffset, hcount⟩ := hlimit _ rfl
      have hn := hcount n rfl
      have hmod : (offset + n) % 2 ^ 64 = offset + n := by
        simp only at hoffset
        omega
      rw [limited, drop_segment, take_segment,
        segment_eq_iff_sameWindow hR (hwalk _) ((min_le_left _ _).trans hb), ScoresRight]
      simp only [walkedLimit, Option.getD_some, hmod, add_assoc]

/-! ## The walks -/

theorem ScoreBound.Above.mono {b : ScoreBound} {s t : ℤ} (h : b.Above s) (hle : s ≤ t) : b.Above t := by
  cases b with
  | included n => exact le_trans h hle
  | excluded n => exact lt_of_lt_of_le h hle
  | negInf => trivial
  | posInf => exact h

theorem ScoreBound.Below.mono {b : ScoreBound} {s t : ℤ} (h : b.Below s) (hle : t ≤ s) : b.Below t := by
  cases b with
  | included n => exact le_trans hle h
  | excluded n => exact lt_of_le_of_lt hle h
  | negInf => exact h
  | posInf => trivial

namespace Db.Members

variable {db : Db} {name : Bytes} {L : List (ℤ × Bytes)} {first last : ScoreBound} {limit : Option Limit}

/-- The items between two bounds are a segment. -/
theorem filter_asked (h : db.Members name L) (first last : ScoreBound) :
    L.filter (fun p => first.Above p.1 ∧ last.Below p.1) =
      (L.take (askedPlaces false first last L).2).drop (askedPlaces false first last L).1 := by
  have hsegment := filter_eq_segment (P := fun p : ℤ × Bytes => ¬ first.Above p.1)
    (Q := fun p => last.Below p.1)
    (h.sorted.imp fun hlt hnot habove => hnot (habove.mono (itemLt_le hlt)))
    (h.sorted.imp fun hlt hbelow => hbelow.mono (itemLt_le hlt))
  simp only [not_not] at hsegment
  exact hsegment

/-- So are those of the reversed list. -/
theorem filter_asked_reverse (h : db.Members name L) (first last : ScoreBound) :
    L.reverse.filter (fun p => first.Below p.1 ∧ last.Above p.1) =
      (L.reverse.take (askedPlaces true first last L).2).drop (askedPlaces true first last L).1 := by
  have hsegment := filter_eq_segment (l := L.reverse) (P := fun p : ℤ × Bytes => ¬ first.Below p.1)
    (Q := fun p => last.Above p.1)
    (List.pairwise_reverse.mpr (h.sorted.imp fun hlt hnot hbelow => hnot (hbelow.mono (itemLt_le hlt))))
    (List.pairwise_reverse.mpr (h.sorted.imp fun hlt habove => habove.mono (itemLt_le hlt)))
  simp only [not_not, List.countP_reverse] at hsegment
  exact hsegment

/-- What a walk forward sees between two scores is a segment. -/
theorem seen_between (h : db.Members name L) (low high : ℤ) :
    seen high (between L low high) =
      (L.take (L.countP fun p => p.1 ≤ high ∧ ¬ BeyondEnd high p)).drop (L.countP fun p => p.1 < low) := by
  have hsegment := filter_eq_segment (P := fun p : ℤ × Bytes => p.1 < low)
    (Q := fun p => p.1 ≤ high ∧ ¬ BeyondEnd high p)
    (h.sorted.imp fun hlt hlow => (itemLt_le hlt).trans_lt hlow) (by
      refine h.sorted.imp ?_
      rintro p q hlt ⟨hhigh, hseen⟩
      refine ⟨(itemLt_le hlt).trans hhigh, ?_⟩
      rintro ⟨heq, hkey⟩
      -- behind a member beyond the end there are only such members up to this score
      rcases hlt with hlt | ⟨hsame, hkeys⟩
      · omega
      · exact hseen ⟨by rw [← hsame, heq], hkey.trans hkeys⟩)
  rw [← hsegment, seen, between, List.filter_filter]
  apply List.filter_congr
  intro p _
  rw [Bool.eq_iff_iff]
  simp only [Bool.and_eq_true, decide_eq_true_eq, not_lt]
  tauto

/-- And what a walk backward sees. -/
theorem before_start (h : db.Members name L) (start : ℤ × Bytes) (low : ℤ) :
    (L.filter fun p => itemLt p start ∧ low ≤ p.1).reverse =
      (L.reverse.take (L.countP fun p => low ≤ p.1)).drop (L.countP fun p => ¬ itemLt p start) := by
  have hsegment := filter_eq_segment (l := L.reverse) (P := fun p : ℤ × Bytes => ¬ itemLt p start)
    (Q := fun p => low ≤ p.1)
    (List.pairwise_reverse.mpr (h.sorted.imp fun hlt hnot hstart => hnot (itemLt_trans hlt hstart)))
    (List.pairwise_reverse.mpr (h.sorted.imp fun hlt hlow => hlow.trans (itemLt_le hlt)))
  simp only [not_not, List.countP_reverse] at hsegment
  rw [← hsegment, List.filter_reverse]

/-- `zscan` between forwarded bounds. -/
theorem zscan_limited_iff (h : db.Members name L) (hname : IsShort name) {low high : Bytes}
    (hlow : boundOf low = first.forwarded 1) (hhigh : boundOf high = last.forwarded (-1))
    (hlimit : ∀ l, limit = some l → l.Fits) :
    (zscan db name [] low high (walkedLimit limit).2).drop (walkedLimit limit).1 =
        (limited (L.filter fun p => first.Above p.1 ∧ last.Below p.1) limit).map itemText ↔
      ScoresRight (askedPlaces false first last L) (walkedPlaces false first last L) limit := by
  rw [h.zscan_scores hname, scoreOr_eq, scoreOr_eq, hlow, hhigh, h.seen_between, ← List.map_drop,
    map_itemText_inj, h.filter_asked]
  exact walk_eq_limited_iff (nodup_of_sorted h.sorted) List.countP_le_length List.countP_le_length limit
    hlimit

/-- `zrscan` between forwarded bounds. -/
theorem zrscan_limited_iff (h : db.Members name L) (hname : IsShort name) {low high : Bytes}
    (hlow : boundOf low = first.forwarded (-1)) (hhigh : boundOf high = last.forwarded 1)
    (hlimit : ∀ l, limit = some l → l.Fits) :
    (zrscan db name [] low high (walkedLimit limit).2).drop (walkedLimit limit).1 =
        (limited (L.reverse.filter fun p => first.Below p.1 ∧ last.Above p.1) limit).map itemText ↔
      ScoresRight (askedPlaces true first last L) (walkedPlaces true first last L) limit := by
  have hscan : scanScore db name [] low = low := by simp [scanScore]
  have hstart : revStart low = (first.forwarded (-1)).elim (2 ^ 63 - 1, []) fun s => (s, keyLast) := by
    rw [← hlow, revStart, boundOf]
    split <;> rfl
  have hle : ∀ P : ℤ × Bytes → Bool, L.countP P ≤ L.reverse.length := by
    intro P
    rw [List.length_reverse]
    exact List.countP_le_length
  rw [zrscan, hscan, h.zrevIterator_scores hname, hstart, scoreOr_eq, hhigh, h.before_start, ← List.map_drop,
    map_itemText_inj, h.filter_asked_reverse]
  exact walk_eq_limited_iff (List.nodup_reverse.mpr (nodup_of_sorted h.sorted)) (hle _) (hle _) limit hlimit

end Db.Members

/-! ## Faithful bounds -/

namespace ScoreBound

/-- An excluded bound whose next integer fits an `int`, and no infinity that excludes every score. -/
def IsFaithful (dir : ℤ) : ScoreBound → Prop
  | included _ => True
  | excluded n => -2 ^ 31 ≤ n + dir ∧ n + dir < 2 ^ 31
  | negInf => dir = 1
  | posInf => dir = -1

variable {b : ScoreBound} {s : ℤ}

/-- A faithful lower bound is forwarded as one for the same scores. -/
theorem low_le_iff (h : b.IsFaithful 1) (hs : IsInt64 s) :
    (b.forwarded 1).getD (-2 ^ 63) ≤ s ↔ b.Above s := by
  cases b with
  | included n => exact Iff.rfl
  | excluded n =>
      have hfits : (n + 1).bmod (2 ^ 32) = n + 1 := Int.bmod_eq_of_le h.1 h.2
      rw [forwarded, hfits, Option.getD_some]
      exact Int.add_one_le_iff
  | negInf => exact iff_of_true hs.1 trivial
  | posInf => exact absurd (show (1 : ℤ) = -1 from h) (by decide)

/-- And so is a faithful upper bound. -/
theorem le_high_iff (h : b.IsFaithful (-1)) (hs : IsInt64 s) :
    s ≤ (b.forwarded (-1)).getD (2 ^ 63 - 1) ↔ b.Below s := by
  cases b with
  | included n => exact Iff.rfl
  | excluded n =>
      have hfits : (n + -1).bmod (2 ^ 32) = n + -1 := Int.bmod_eq_of_le h.1 h.2
      rw [forwarded, hfits, Option.getD_some]
      exact Int.le_sub_one_iff
  | negInf => exact absurd (show (-1 : ℤ) = 1 from h) (by decide)
  | posInf => exact iff_of_true (Int.le_sub_one_of_lt hs.2) trivial

end ScoreBound

/-- **Faithful bounds mean the same places for the walk**, if it sees all members up to the last one. -/
theorem Db.Members.walkedPlaces_eq {db : Db} {name : Bytes} {L : List (ℤ × Bytes)} (h : db.Members name L)
    {first last : ScoreBound} (hfirst : first.IsFaithful 1) (hlast : last.IsFaithful (-1))
    (hseen : ∀ p ∈ L, ¬ BeyondEnd ((last.forwarded (-1)).getD (2 ^ 63 - 1)) p) :
    walkedPlaces false first last L = askedPlaces false first last L := by
  apply Prod.ext
  · apply List.countP_congr
    intro p hp
    simp only [decide_eq_true_eq]
    rw [← ScoreBound.low_le_iff hfirst (h.isInt64 p hp), not_le]
  · apply List.countP_congr
    intro p hp
    simp only [decide_eq_true_eq]
    rw [← ScoreBound.le_high_iff hlast (h.isInt64 p hp)]
    exact and_iff_left (hseen p hp)

/-- **And for the walk backward**, if it begins behind all members with the score of its start. -/
theorem Db.Members.walkedPlaces_backward_eq {db : Db} {name : Bytes} {L : List (ℤ × Bytes)}
    (h : db.Members name L) {first last : ScoreBound} (hfirst : first.IsFaithful (-1)) (hlast : last.IsFaithful 1)
    (hseen : ∀ p ∈ L, p.1 = (first.forwarded (-1)).getD (2 ^ 63 - 1) →
      first.forwarded (-1) ≠ none ∧ p.2 < keyLast) :
    walkedPlaces true first last L = askedPlaces true first last L := by
  apply Prod.ext
  · apply List.countP_congr
    intro p hp
    have hbelow := ScoreBound.le_high_iff hfirst (h.isInt64 p hp)
    have hpoint := hseen p hp
    have hint := h.isInt64 p hp
    simp only [decide_eq_true_eq]
    rw [← hbelow, not_iff_not]
    cases hforwarded : first.forwarded (-1) with
    | none =>
        rw [hforwarded, Option.getD_none] at hpoint
        simp only [Option.elim_none, Option.getD_none, itemLt]
        constructor
        · rintro (hlt | ⟨-, hnil⟩)
          · omega
          · exact absurd hnil (List.not_lt_nil _)
        · intro hle
          left
          by_contra hge
          exact (hpoint (by omega)).1 rfl
    | some s =>
        rw [hforwarded, Option.getD_some] at hpoint
        simp only [Option.elim_some, Option.getD_some, itemLt]
        constructor
        · rintro (hlt | ⟨heq, -⟩)
          · omega
          · exact heq.le
        · intro hle
          rcases hle.lt_or_eq with hlt | heq
          · exact Or.inl hlt
          · exact Or.inr ⟨heq, (hpoint heq).2⟩
  · apply List.countP_congr
    intro p hp
    simp only [decide_eq_true_eq]
    exact ScoreBound.low_le_iff hlast (h.isInt64 p hp)

/-- **Score ranges of Redis** are those of the sorted list exactly where the forwarded numbers mean the same
window of it: after any operations, for the list of the members of a sorted set, all bounds in any of their
texts, and all options, the converted command replies with the items between the bounds, after the offset
and cut to the count, for `ZREVRANGEBYSCORE` in the reversed order. -/
theorem redis_scores (steps : List StoreStep) {name : Bytes} (hname : IsShort name) :
    let db := steps.foldl Db.step OrderedMap.empty
    ∃ L : List (ℤ × Bytes), L.Pairwise itemLt ∧
      (∀ key s, (s, key) ∈ L ↔ zget db name key = some (str s)) ∧
      ∀ toScore errno cmd (first last : ScoreBound) firstText lastText limit options,
        first.IsText firstText → last.IsText lastText → AreOptions limit options →
        let req := (RedisLink.convertReq toScore errno
          (cmd :: name :: firstText :: lastText :: options)).1
        (RedisLink.toLower cmd = ascii "zrangebyscore" →
          (procZscan db req = ascii "ok" :: itemStrings
              ((limited (L.filter fun p => first.Above p.1 ∧ last.Below p.1) limit).map itemText) ↔
            ScoresRight (askedPlaces false first last L) (walkedPlaces false first last L) limit)) ∧
        (RedisLink.toLower cmd = ascii "zrevrangebyscore" →
          (procZrscan db req = ascii "ok" :: itemStrings
              ((limited (L.reverse.filter fun p => first.Below p.1 ∧ last.Above p.1) limit).map itemText) ↔
            ScoresRight (askedPlaces true first last L) (walkedPlaces true first last L) limit)) := by
  intro db
  obtain ⟨L, h⟩ := (isStore_run steps).exists_members hname
  refine ⟨L, h.sorted, h.mem, ?_⟩
  intro toScore errno cmd first last firstText lastText limit options hfirst hlast hoptions
  have hlimit : ∀ l, limit = some l → l.Fits := by
    rintro l rfl
    exact hoptions.fits
  constructor
  · intro hcmd
    have htable : RedisLink.cmdTable (RedisLink.toLower cmd) = some (.zrangebyscore, ascii "zscan") := by
      rw [hcmd]
      decide +kernel
    obtain ⟨low, high, hlow, hhigh, hreply⟩ := procScan_convertReq (zscan db) toScore errno name
      htable (Or.inl ⟨rfl, rfl⟩) hfirst hlast hoptions
    rw [procZscan, hreply, List.cons_inj_right, itemStrings_injective.eq_iff]
    exact h.zscan_limited_iff hname hlow hhigh hlimit
  · intro hcmd
    have htable : RedisLink.cmdTable (RedisLink.toLower cmd) = some (.zrevrangebyscore, ascii "zrscan") := by
      rw [hcmd]
      decide +kernel
    obtain ⟨low, high, hlow, hhigh, hreply⟩ := procScan_convertReq (zrscan db) toScore errno name
      htable (Or.inr ⟨rfl, rfl⟩) hfirst hlast hoptions
    rw [procZrscan, hreply, List.cons_inj_right, itemStrings_injective.eq_iff]
    exact h.zrscan_limited_iff hname hlow hhigh hlimit

theorem redis_scores_twoMembers :
    IsShort (ascii "z") ∧
      ∃ L : List (ℤ × Bytes), L.Pairwise itemLt ∧
        (procZscan (twoMembers.foldl Db.step OrderedMap.empty)
            (RedisLink.convertReq (fun errno s => (strtoll s, errno)) 0
              [ascii "ZRANGEBYSCORE", ascii "z", ascii "-inf", ascii "+inf"]).1 =
            ascii "ok" :: itemStrings ((L.filter fun p => ScoreBound.negInf.Above p.1 ∧
              ScoreBound.posInf.Below p.1).map itemText) ↔
          ScoresRight (askedPlaces false .negInf .posInf L) (walkedPlaces false .negInf .posInf L) none) := by
  have hname : IsShort (ascii "z") := show (ascii "z").length ≤ 255 by decide
  obtain ⟨L, hsorted, -, hscores⟩ := redis_scores twoMembers hname
  refine ⟨hname, L, hsorted, ?_⟩
  have hoptions : AreOptions none [] := ⟨[], [], by simp, rfl⟩
  exact (hscores (fun errno s => (strtoll s, errno)) 0 (ascii "ZRANGEBYSCORE") .negInf .posInf _ _ none [] rfl
    rfl hoptions).1 (by decide +kernel)

/-- **An excluded bound that does not fit an `int`**: no member has a score above 3000000000, and the reply
has both members. -/
theorem zrangebyscore_wraps :
    procZscan (twoMembers.foldl Db.step OrderedMap.empty)
        (RedisLink.convertReq (fun errno s => (strtoll s, errno)) 0
          [ascii "zrangebyscore", ascii "z", ascii "(3000000000", ascii "+inf"]).1 =
        [ascii "ok", ascii "a", ascii "1", ascii "b", ascii "2"] ∧
      [((1 : ℤ), ascii "a"), (2, ascii "b")].filter (fun p => (ScoreBound.excluded 3000000000).Above p.1 ∧
        ScoreBound.posInf.Below p.1) = [] := by
  constructor
  · decide +kernel
  · decide +kernel

end Ssdb
