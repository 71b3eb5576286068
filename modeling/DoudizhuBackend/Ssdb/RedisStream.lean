/-
# Redis requests that arrive in pieces

A client of the Redis protocol sends a request as a line with the number of its strings and, for each
string, a line with its length, the bytes and a line end; every line end may be LF or CRLF.
`Link::recv` goes to `parse_req` with whatever has arrived (`ssdb-master/src/net/link.cpp`,
`net/link_redis.cpp`).

`parse_req` skips one byte behind a string, whatever it is, and then a LF.  So it returns a request as
soon as the *first* byte of its last line end is there, and a LF that arrives later is skipped as an
empty line before the next request.  The stream is therefore cut into items that are `tight`: a request
without what follows the first byte of its last line end, and the LF that may be left of the request
before it (`exists_items`).  In this cut the link decodes (`Session.decodes`), which gives the theorem on
all chunks, `redis_requests_lossless`.
-/
import DoudizhuBackend.Ssdb.RedisLink

namespace Ssdb

open ChunkedStream

/-! ## Requests on the wire -/

/-- The two ways to end a line. -/
inductive LineEnd where
  | lf | crlf
  deriving DecidableEq

namespace LineEnd

/-- The bytes of a line end. -/
def bytes : LineEnd → Bytes
  | lf => [newline]
  | crlf => [carriageReturn, newline]

/-- The first byte of a line end. -/
def first : LineEnd → Byte
  | lf => newline
  | crlf => carriageReturn

/-- What follows the first byte. -/
def rest : LineEnd → Bytes
  | lf => []
  | crlf => [newline]

theorem bytes_eq (e : LineEnd) : e.bytes = e.first :: e.rest := by
  cases e <;> rfl

theorem rest_cases (e : LineEnd) : e.rest = [] ∨ e.rest = [newline] := by
  cases e with
  | lf => exact Or.inl rfl
  | crlf => exact Or.inr rfl

end LineEnd

/-- A string of a request with the line ends behind its length and behind its bytes.  Lengths are `int`. -/
structure Bulk where
  data : Bytes
  sizeEnd : LineEnd
  dataEnd : LineEnd
  length_lt : data.length < 2 ^ 31

/-- A request: one or more strings. -/
structure RedisRequest where
  countEnd : LineEnd
  bulks : List Bulk
  bulks_ne_nil : bulks ≠ []
  length_lt : bulks.length < 2 ^ 31

/-- The line with a number, behind `*` or `$`. -/
def numberLine (sigil : Byte) (n : ℕ) (e : LineEnd) : Bytes := sigil :: (decimal n ++ e.bytes)

/-- A string with its size before it and a line end behind it. -/
def Bulk.encode (b : Bulk) : Bytes :=
  numberLine (chr '$') b.data.length b.sizeEnd ++ (b.data ++ b.dataEnd.bytes)

/-- A string up to the first byte of its last line end. -/
def Bulk.tight (b : Bulk) : Bytes :=
  numberLine (chr '$') b.data.length b.sizeEnd ++ (b.data ++ [b.dataEnd.first])

/-- Strings up to the first byte of the last line end. -/
def tightBulks : List Bulk → Bytes
  | [] => []
  | [b] => b.tight
  | b :: bs => b.encode ++ tightBulks bs

namespace RedisRequest

/-- The strings of a request. -/
def args (r : RedisRequest) : Packet := r.bulks.map Bulk.data

/-- The bytes of a request. -/
def encode (r : RedisRequest) : Bytes :=
  numberLine (chr '*') r.bulks.length r.countEnd ++ r.bulks.flatMap Bulk.encode

/-- The bytes of a request without what is optional at its end. -/
def tight (r : RedisRequest) : Bytes :=
  numberLine (chr '*') r.bulks.length r.countEnd ++ tightBulks r.bulks

end RedisRequest

theorem Bulk.encode_eq (b : Bulk) : b.encode = b.tight ++ b.dataEnd.rest := by
  simp [Bulk.encode, Bulk.tight, LineEnd.bytes_eq]

theorem tightBulks_cons (b : Bulk) {bs : List Bulk} (h : bs ≠ []) :
    tightBulks (b :: bs) = b.tight ++ (b.dataEnd.rest ++ tightBulks bs) := by
  obtain ⟨c, bs, rfl⟩ := List.exists_cons_of_ne_nil h
  rw [tightBulks, Bulk.encode_eq, List.append_assoc]
  intro hnil
  cases hnil

/-- All strings: the tight ones, and what is left of the last line end. -/
theorem flatMap_encode_eq {bs : List Bulk} (h : bs ≠ []) :
    ∃ e : LineEnd, bs.flatMap Bulk.encode = tightBulks bs ++ e.rest := by
  induction bs with
  | nil => exact absurd rfl h
  | cons b bs ih =>
      rw [List.flatMap_cons]
      by_cases hbs : bs = []
      · subst hbs
        refine ⟨b.dataEnd, ?_⟩
        rw [List.flatMap_nil, List.append_nil, Bulk.encode_eq, tightBulks]
      · obtain ⟨e, he⟩ := ih hbs
        refine ⟨e, ?_⟩
        rw [he, tightBulks_cons b hbs, Bulk.encode_eq]
        simp

theorem RedisRequest.encode_eq (r : RedisRequest) : ∃ e : LineEnd, r.encode = r.tight ++ e.rest := by
  obtain ⟨e, he⟩ := flatMap_encode_eq r.bulks_ne_nil
  refine ⟨e, ?_⟩
  rw [RedisRequest.encode, RedisRequest.tight, he, List.append_assoc]

/-- The ways in which a request stands in the stream: a LF of the request before it may come first. -/
def InStream (args : Packet) (e : Bytes) : Prop :=
  ∃ (r : RedisRequest) (before : LineEnd), args = r.args ∧ e = before.rest ++ r.tight

/-- What may follow the last request. -/
def IsTail (t : Bytes) : Prop := ∃ before : LineEnd, t = before.rest

/-- **The stream as items**: each request without the end of its last line end, which goes to the next. -/
theorem exists_items (requests : List RedisRequest) : ∀ before : LineEnd,
    ∃ (items : List (Packet × Bytes)) (t : Bytes), (∀ p ∈ items, InStream p.1 p.2) ∧ IsTail t ∧
      items.map Prod.fst = requests.map RedisRequest.args ∧
      before.rest ++ requests.flatMap RedisRequest.encode = items.flatMap Prod.snd ++ t := by
  induction requests with
  | nil =>
      intro before
      refine ⟨[], before.rest, by simp, ⟨before, rfl⟩, rfl, ?_⟩
      rw [List.flatMap_nil, List.flatMap_nil, List.append_nil, List.nil_append]
  | cons r requests ih =>
      intro before
      obtain ⟨e, he⟩ := r.encode_eq
      obtain ⟨items, t, hitems, ht, hfst, hsnd⟩ := ih e
      refine ⟨(r.args, before.rest ++ r.tight) :: items, t, ?_, ht, ?_, ?_⟩
      · intro p hp
        rcases List.mem_cons.mp hp with rfl | hp
        · exact ⟨r, before, rfl, rfl⟩
        · exact hitems p hp
      · rw [List.map_cons, List.map_cons, hfst]
      · calc before.rest ++ (r :: requests).flatMap RedisRequest.encode
            = before.rest ++ r.tight ++ (e.rest ++ requests.flatMap RedisRequest.encode) := by
              rw [List.flatMap_cons, he]
              simp only [List.append_assoc]
          _ = before.rest ++ r.tight ++ (items.flatMap Prod.snd ++ t) := by rw [hsnd]
          _ = ((r.args, before.rest ++ r.tight) :: items).flatMap Prod.snd ++ t := by
              simp only [List.flatMap_cons, List.append_assoc]

/-! ## The parser on a line, a string and the strings of a request -/

theorem sigil_ne_newline : chr '$' ≠ newline ∧ chr '*' ≠ newline := by decide

theorem not_isDigit_first (e : LineEnd) : isDigit e.first = false := by
  cases e <;> decide

/-- A line with a number, cut at its newline. -/
theorem numberLine_eq (sigil : Byte) (n : ℕ) (e : LineEnd) :
    ∃ line : Bytes, numberLine sigil n e = line ++ [newline] ∧
      (sigil ≠ newline → newline ∉ line) := by
  cases e with
  | lf =>
      refine ⟨sigil :: decimal n, rfl, ?_⟩
      intro hsigil hmem
      rcases List.mem_cons.mp hmem with h | h
      · exact hsigil h.symm
      · exact newline_notMem_decimal n h
  | crlf =>
      refine ⟨sigil :: (decimal n ++ [carriageReturn]), ?_, ?_⟩
      · simp [numberLine, LineEnd.bytes]
      · intro hsigil hmem
        rcases List.mem_cons.mp hmem with h | h
        · exact hsigil h.symm
        · rcases List.mem_append.mp h with h | h
          · exact newline_notMem_decimal n h
          · exact absurd h (by decide)

/-- The beginning of a line with a number and of what follows it. -/
theorem prefix_numberLine_cases {sigil : Byte} (hsigil : sigil ≠ newline) {n : ℕ} {e : LineEnd}
    {s body : Bytes} (h : s <+: numberLine sigil n e ++ body) :
    newline ∉ s ∨ ∃ u, s = numberLine sigil n e ++ u ∧ u <+: body := by
  obtain ⟨line, hline, hnot⟩ := numberLine_eq sigil n e
  rw [hline, List.append_assoc] at h
  rcases prefix_append_cases h with hpre | ⟨u, rfl, hu⟩
  · left
    intro hmem
    exact hnot hsigil (hpre.subset hmem)
  · cases u with
    | nil =>
        left
        rw [List.append_nil]
        exact hnot hsigil
    | cons c u =>
        right
        obtain ⟨rfl, hbody⟩ := List.cons_prefix_cons.mp hu
        refine ⟨u, ?_, hbody⟩
        rw [hline, List.append_assoc]
        rfl

/-- `strtol` reads the number of a line. -/
theorem atoi_line {n : ℕ} (hn : n < 2 ^ 31) (e : LineEnd) (t : Bytes) :
    atoi (decimal n ++ (e.bytes ++ t)) = n ∧ IsInt64 (readInt (decimal n ++ (e.bytes ++ t))) := by
  have hread : readInt (decimal n ++ (e.bytes ++ t)) = n := by
    apply readInt_decimal_append
    intro b hb
    rw [LineEnd.bytes_eq, List.cons_append, List.head?_cons, Option.mem_some_iff] at hb
    subst hb
    exact not_isDigit_first e
  constructor
  · have hint : strtoll (decimal n ++ (e.bytes ++ t)) = n := by
      rw [strtoll, hread, min_eq_left (by omega), max_eq_right (by omega)]
    rw [atoi, hint]
    exact Int.bmod_eq_of_le_mul_two (by omega) (by omega)
  · rw [hread]
    constructor
    · omega
    · omega

namespace RedisLink

/-- No newline: the parser waits. -/
theorem parseLoop_no_newline {s : Bytes} (h : newline ∉ s) (behind : Bytes) (turns : ℕ)
    (errno numArgs : ℤ) (recvBytes : Packet) :
    parseLoop behind turns errno numArgs recvBytes s = (.notReady, errno) := by
  cases turns with
  | zero => rfl
  | succ turns => rw [parseLoop, takeWhile_of_notMem h, if_pos rfl]

/-- **One turn of the parser** on a whole line. -/
theorem parseLoop_numberLine {sigil : Byte} (hsigil : sigil ≠ newline) {n : ℕ} (hn : n < 2 ^ 31)
    (e : LineEnd) (body behind : Bytes) (turns : ℕ) {errno : ℤ} (herrno : errno ≠ einval)
    (numArgs : ℤ) (recvBytes : Packet) :
    parseLoop behind (turns + 1) errno numArgs recvBytes (numberLine sigil n e ++ body) =
      if numArgs = 0 then
        if (n : ℤ) ≤ 0 then (.error recvBytes, errno) else parseLoop behind turns errno n recvBytes body
      else if body.length < n + 1 then (.notReady, errno)
      else if numArgs = 1 then
        (.request (recvBytes ++ [body.take n]) (skipNewline (body.drop (n + 1))), errno)
      else parseLoop behind turns errno (numArgs - 1) (recvBytes ++ [body.take n])
        (skipNewline (body.drop (n + 1))) := by
  obtain ⟨line, hline, hnot⟩ := numberLine_eq sigil n e
  have hptr : numberLine sigil n e ++ body = line ++ newline :: body := by
    rw [hline, List.append_assoc]
    rfl
  have htake : (numberLine sigil n e ++ body).takeWhile (· ≠ newline) = line := by
    rw [hptr]
    exact takeWhile_line (hnot hsigil) body
  have hlength : line.length ≠ (numberLine sigil n e ++ body).length := by
    rw [hptr, List.length_append, List.length_cons]
    omega
  have hbody : (numberLine sigil n e ++ body).drop (line.length + 1) = body := by
    rw [hptr, ← List.drop_drop, List.drop_left, List.drop_one, List.tail_cons]
  have hnumber : (numberLine sigil n e ++ body ++ behind).drop 1 =
      decimal n ++ (e.bytes ++ (body ++ behind)) := by
    simp [numberLine]
  obtain ⟨hatoi, hint⟩ := atoi_line hn e (body ++ behind)
  rw [parseLoop]
  simp only [htake, hbody, hnumber, hatoi, errnoOfStrtol, if_pos hint, if_neg hlength, if_neg herrno,
    Int.toNat_natCast]
  rw [if_neg (by omega)]

/-- **A string** goes to the arguments. -/
theorem parseLoop_bulk (b : Bulk) (t behind : Bytes) (turns : ℕ) {errno : ℤ} (herrno : errno ≠ einval)
    {numArgs : ℤ} (hargs : numArgs ≠ 0) (recvBytes : Packet) :
    parseLoop behind (turns + 1) errno numArgs recvBytes (b.tight ++ t) =
      if numArgs = 1 then (.request (recvBytes ++ [b.data]) (skipNewline t), errno)
      else parseLoop behind turns errno (numArgs - 1) (recvBytes ++ [b.data]) (skipNewline t) := by
  have hptr : b.tight ++ t =
      numberLine (chr '$') b.data.length b.sizeEnd ++ (b.data ++ b.dataEnd.first :: t) := by
    simp [Bulk.tight]
  have hdrop : (b.data ++ b.dataEnd.first :: t).drop (b.data.length + 1) = t := by
    rw [← List.drop_drop, List.drop_left, List.drop_one, List.tail_cons]
  have hlength : ¬(b.data ++ b.dataEnd.first :: t).length < b.data.length + 1 := by
    rw [List.length_append, List.length_cons]
    omega
  rw [hptr, parseLoop_numberLine sigil_ne_newline.1 b.length_lt b.sizeEnd _ behind turns herrno,
    if_neg hargs, if_neg hlength, hdrop, List.take_left]

/-- Part of a string: the parser waits. -/
theorem parseLoop_bulk_part (b : Bulk) {s : Bytes} (hs : s <+: b.tight) (hne : s ≠ b.tight)
    (behind : Bytes) (turns : ℕ) {errno : ℤ} (herrno : errno ≠ einval) {numArgs : ℤ}
    (hargs : numArgs ≠ 0) (recvBytes : Packet) :
    parseLoop behind turns errno numArgs recvBytes s = (.notReady, errno) := by
  rcases prefix_numberLine_cases sigil_ne_newline.1 hs with hline | ⟨u, rfl, hu⟩
  · exact parseLoop_no_newline hline behind turns errno numArgs recvBytes
  · -- the line is there, and some of what follows it is missing
    have hlength : u.length < b.data.length + 1 := by
      rcases Nat.lt_or_ge u.length (b.data.length + 1) with hlt | hge
      · exact hlt
      · exfalso
        apply hne
        rw [Bulk.tight, hu.eq_of_length_le (by simpa using hge)]
    cases turns with
    | zero => rfl
    | succ turns =>
        rw [parseLoop_numberLine sigil_ne_newline.1 b.length_lt b.sizeEnd _ behind turns herrno,
          if_neg hargs, if_pos hlength]

theorem skipNewline_of_ne {b : Byte} (h : b ≠ newline) (t : Bytes) : skipNewline (b :: t) = b :: t :=
  if_neg h

theorem skipNewline_cases (t : Bytes) : t = skipNewline t ∨ t = newline :: skipNewline t := by
  cases t with
  | nil => exact Or.inl rfl
  | cons b t =>
      by_cases hb : b = newline
      · right
        subst hb
        rw [skipNewline, if_pos rfl]
      · left
        rw [skipNewline_of_ne hb]

/-- The next string starts behind what is left of a line end. -/
theorem skipNewline_rest (e : LineEnd) {t : Bytes} (ht : t.head? ≠ some newline) :
    skipNewline (e.rest ++ t) = t := by
  cases e with
  | lf =>
      cases t with
      | nil => rfl
      | cons b t =>
          apply skipNewline_of_ne
          rintro rfl
          exact ht rfl
  | crlf => rfl

/-- Part of a line end and of what follows it. -/
theorem skipNewline_part (e : LineEnd) {t u : Bytes} (ht : t.head? ≠ some newline) (hne : t ≠ [])
    (hu : u <+: e.rest ++ t) (hpart : u ≠ e.rest ++ t) : skipNewline u <+: t ∧ skipNewline u ≠ t := by
  cases e with
  | lf =>
      have hsame : skipNewline u = u := by
        obtain ⟨d, hd⟩ := hu
        have hhead : (u ++ d).head? ≠ some newline := by rw [hd]; exact ht
        cases u with
        | nil => rfl
        | cons b u =>
            apply skipNewline_of_ne
            rintro rfl
            exact hhead rfl
      rw [hsame]
      exact ⟨hu, hpart⟩
  | crlf =>
      cases u with
      | nil => exact ⟨List.nil_prefix, hne.symm⟩
      | cons b u =>
          obtain ⟨rfl, hrest⟩ := List.cons_prefix_cons.mp hu
          refine ⟨hrest, ?_⟩
          rintro rfl
          exact hpart rfl

theorem exists_tightBulks {bs : List Bulk} (h : bs ≠ []) : ∃ t, tightBulks bs = chr '$' :: t := by
  obtain ⟨b, bs, rfl⟩ := List.exists_cons_of_ne_nil h
  cases bs with
  | nil => exact ⟨_, rfl⟩
  | cons c bs => exact ⟨_, rfl⟩

theorem head_tightBulks_append {bs : List Bulk} (h : bs ≠ []) (t : Bytes) :
    (tightBulks bs ++ t).head? ≠ some newline := by
  obtain ⟨u, hu⟩ := exists_tightBulks h
  rw [hu, List.cons_append, List.head?_cons]
  decide

/-- **The strings of a request**, whatever follows them. -/
theorem parseLoop_bulks (t behind : Bytes) {errno : ℤ} (herrno : errno ≠ einval) (bs : List Bulk) :
    ∀ (turns : ℕ) (recvBytes : Packet), bs ≠ [] → bs.length ≤ turns →
      parseLoop behind turns errno bs.length recvBytes (tightBulks bs ++ t) =
        (.request (recvBytes ++ bs.map Bulk.data) (skipNewline t), errno) := by
  induction bs with
  | nil =>
      intro turns recvBytes hne _
      exact absurd rfl hne
  | cons b bs ih =>
      intro turns recvBytes _ hturns
      rw [List.length_cons] at hturns ⊢
      obtain ⟨turns, rfl⟩ : ∃ m, turns = m + 1 := ⟨turns - 1, by omega⟩
      by_cases hbs : bs = []
      · subst hbs
        rw [tightBulks, parseLoop_bulk b t behind turns herrno (by simp), if_pos (by simp)]
        rfl
      · have hpos : 0 < bs.length := List.length_pos_iff.mpr hbs
        have hptr : tightBulks (b :: bs) ++ t = b.tight ++ (b.dataEnd.rest ++ (tightBulks bs ++ t)) := by
          rw [tightBulks_cons b hbs]
          simp only [List.append_assoc]
        have hargs : ((bs.length + 1 : ℕ) : ℤ) - 1 = bs.length := by omega
        rw [hptr, parseLoop_bulk b _ behind turns herrno (by omega), if_neg (by omega),
          skipNewline_rest _ (head_tightBulks_append hbs t), hargs, ih turns _ hbs (by omega),
          List.map_cons, List.append_assoc]
        rfl

/-- Part of the strings of a request: the parser waits. -/
theorem parseLoop_bulks_part (behind : Bytes) {errno : ℤ} (herrno : errno ≠ einval) (bs : List Bulk) :
    ∀ (turns : ℕ) (recvBytes : Packet) (s : Bytes), s <+: tightBulks bs → s ≠ tightBulks bs →
      parseLoop behind turns errno bs.length recvBytes s = (.notReady, errno) := by
  induction bs with
  | nil =>
      intro turns recvBytes s hs hne
      exact absurd (List.prefix_nil.mp hs) hne
  | cons b bs ih =>
      intro turns recvBytes s hs hne
      have hargs : ((bs.length + 1 : ℕ) : ℤ) ≠ 0 := by omega
      by_cases hbs : bs = []
      · subst hbs
        exact parseLoop_bulk_part b hs hne behind turns herrno hargs recvBytes
      · rw [tightBulks_cons b hbs] at hs hne
        by_cases hfirst : s <+: b.tight ∧ s ≠ b.tight
        · exact parseLoop_bulk_part b hfirst.1 hfirst.2 behind turns herrno hargs recvBytes
        · -- the first string is there; what follows is part of the line end or of the strings left
          obtain ⟨u, rfl, hu⟩ : ∃ u, s = b.tight ++ u ∧ u <+: b.dataEnd.rest ++ tightBulks bs := by
            rcases prefix_append_cases hs with hpre | hrest
            · by_cases heq : s = b.tight
              · exact ⟨[], by rw [List.append_nil, heq], List.nil_prefix⟩
              · exact absurd ⟨hpre, heq⟩ hfirst
            · exact hrest
          cases turns with
          | zero => rfl
          | succ turns =>
              have hpos : 0 < bs.length := List.length_pos_iff.mpr hbs
              have hnext : ((bs.length + 1 : ℕ) : ℤ) - 1 = bs.length := by omega
              rw [List.length_cons, parseLoop_bulk b u behind turns herrno hargs, if_neg (by omega), hnext]
              have hhead : (tightBulks bs).head? ≠ some newline := by
                have := head_tightBulks_append hbs []
                rwa [List.append_nil] at this
              have hne' : tightBulks bs ≠ [] := by
                obtain ⟨t, ht⟩ := exists_tightBulks hbs
                rw [ht]
                exact List.cons_ne_nil _ _
              obtain ⟨hpre, hpart⟩ := skipNewline_part b.dataEnd hhead hne' hu fun h => hne (by rw [h])
              exact ih turns _ _ hpre hpart

/-! ## The parser on a request -/

theorem length_le_tightBulks (bs : List Bulk) : bs.length ≤ (tightBulks bs).length := by
  induction bs with
  | nil => exact le_rfl
  | cons b bs ih =>
      have hb : 0 < b.tight.length := by simp [Bulk.tight, numberLine]
      by_cases hbs : bs = []
      · subst hbs
        exact hb
      · rw [tightBulks_cons b hbs, List.length_append, List.length_append, List.length_cons]
        omega

/-- **A whole request**, whatever follows it; empty lines before it are skipped. -/
theorem parseReq_request (r : RedisRequest) {input t : Bytes}
    (hptr : input.dropWhile isLineEnd = r.tight ++ t) (behind : Bytes) {errno : ℤ}
    (herrno : errno ≠ einval) :
    parseReq behind errno input = (.request r.args (skipNewline t), errno) := by
  have hpos : 0 < r.bulks.length := List.length_pos_iff.mpr r.bulks_ne_nil
  have hturns : r.bulks.length ≤ (r.tight ++ t).length := by
    have := length_le_tightBulks r.bulks
    rw [RedisRequest.tight, List.length_append, List.length_append]
    omega
  have hhead : (r.tight ++ t ++ behind).head? = some (chr '*') := rfl
  rw [parseReq]
  simp only [hptr, hhead, ne_eq, not_true_eq_false, if_false]
  generalize (r.tight ++ t).length = turns at hturns ⊢
  rw [RedisRequest.tight, List.append_assoc, parseLoop_numberLine sigil_ne_newline.2 r.length_lt
    r.countEnd _ behind turns herrno, if_pos rfl, if_neg (by omega),
    parseLoop_bulks t behind herrno r.bulks turns [] r.bulks_ne_nil hturns]
  rfl

/-- Part of a request: the parser waits. -/
theorem parseReq_part (r : RedisRequest) {input : Bytes}
    (hpre : input.dropWhile isLineEnd <+: r.tight) (hne : input.dropWhile isLineEnd ≠ r.tight)
    (behind : Bytes) (hstar : (input.dropWhile isLineEnd ++ behind).head? = some (chr '*')) {errno : ℤ}
    (herrno : errno ≠ einval) :
    parseReq behind errno input = (.notReady, errno) := by
  have hpos : 0 < r.bulks.length := List.length_pos_iff.mpr r.bulks_ne_nil
  rw [parseReq]
  simp only [hstar, ne_eq, not_true_eq_false, if_false]
  generalize input.dropWhile isLineEnd = ptr at hpre hne
  rcases prefix_numberLine_cases sigil_ne_newline.2 hpre with hline | ⟨u, rfl, hu⟩
  · exact parseLoop_no_newline hline behind _ errno 0 []
  · generalize (numberLine (chr '*') r.bulks.length r.countEnd ++ u).length = turns
    rw [parseLoop_numberLine sigil_ne_newline.2 r.length_lt r.countEnd _ behind turns herrno, if_pos rfl,
      if_neg (by omega)]
    apply parseLoop_bulks_part behind herrno r.bulks turns [] u hu
    rintro rfl
    exact hne rfl

end RedisLink

/-! ## The link -/

/-- What a call of `Link::recv` finds beside the input: the bytes behind it, and `errno`. -/
structure RedisCall where
  behind : Bytes
  errno : ℤ

/-- What `parse_req` makes of the input: `NULL`, or the input that is left and the arguments, none when
the request is not ready. -/
def RedisCall.parsed (c : RedisCall) (input : Bytes) : Option (Bytes × Packet) :=
  match (RedisLink.parseReq c.behind c.errno input).1 with
  | .error _ => none
  | .notReady => some (input, [])
  | .request recvBytes rest => some (rest, recvBytes)

/-- A link on which Redis requests arrive: its input, and what the calls to come will find. -/
structure Session where
  input : Bytes
  calls : ℕ → RedisCall

namespace Session

/-- `Link::recv`, called again and again; an empty result is the report that no request is ready. -/
def reader : Reader Session Packet Byte where
  poll := fun st =>
    (Link.recv (st.calls 0).parsed ((st.calls 0).behind.headD 0) st.input).map fun r =>
      (⟨r.1, fun i => st.calls (i + 1)⟩, if r.2 = [] then none else some r.2)
  push := fun st chunk => { st with input := st.input ++ chunk }
  start := id

/-- Every chunk that is read is followed by calls of `recv` until it reports that no request is ready:
the arguments of the requests, and the link that is left. -/
def serve (calls : ℕ → RedisCall) (chunks : List Bytes) : Option (List Packet × Session) :=
  feed reader (fun st => st.input.length + 2) ⟨[], calls⟩ chunks

/-- `Link::recv` on an input that starts with `*` behind the empty lines. -/
theorem recv_star (c : RedisCall) {input t : Bytes}
    (h : input.dropWhile RedisLink.isLineEnd = chr '*' :: t) :
    Link.recv c.parsed (c.behind.headD 0) input = c.parsed input := by
  have hne : input ≠ [] := by
    rintro rfl
    cases h
  have hhead : (input.dropWhile fun b => b = newline ∨ b = carriageReturn).headD (c.behind.headD 0) =
      chr '*' := by
    show (input.dropWhile RedisLink.isLineEnd).headD _ = _
    rw [h]
    rfl
  rw [Link.recv, if_neg hne]
  simp only [hhead, if_true]

/-- **Only empty lines**: no request is ready, whatever byte stands behind them. -/
theorem recv_blank (c : RedisCall) {input : Bytes} (h : input.dropWhile RedisLink.isLineEnd = []) :
    Link.recv c.parsed (c.behind.headD 0) input = some (input, []) := by
  have hdrop : (input.dropWhile fun b => b = newline ∨ b = carriageReturn) = [] := h
  rw [Link.recv]
  split
  · rfl
  · simp only [hdrop, List.headD_nil, List.length_nil, Link.recvLoop]
    split
    · -- the byte behind the input is a `*`, which the parser finds as well
      rename_i hstar
      have hbehind : c.behind.head? = some (chr '*') := by
        cases hc : c.behind with
        | nil =>
            rw [hc] at hstar
            exact absurd hstar (by decide)
        | cons b t =>
            rw [hc] at hstar
            rw [List.head?_cons]
            exact congrArg some hstar
      have hparse : RedisLink.parseReq c.behind c.errno input = (.notReady, c.errno) := by
        rw [RedisLink.parseReq]
        simp only [h, List.nil_append, hbehind, ne_eq, not_true_eq_false, if_false]
        exact RedisLink.parseLoop_no_newline List.not_mem_nil c.behind _ c.errno 0 []
      rw [RedisCall.parsed, hparse]
    · rfl

/-- The bytes that a session stands for: its input, before which a LF may have been skipped. -/
def Represents (st : Session) (s : Bytes) : Prop :=
  (s = st.input ∨ s = newline :: st.input) ∧ ∀ i, (st.calls i).errno ≠ einval

/-- Empty lines do not matter. -/
theorem Represents.dropWhile_eq {st : Session} {s : Bytes} (h : Represents st s) :
    st.input.dropWhile RedisLink.isLineEnd = s.dropWhile RedisLink.isLineEnd := by
  rcases h.1 with rfl | rfl
  · rfl
  · rfl

/-- A call that reports that no request is ready leaves the session as it stands. -/
theorem Represents.poll_wait {st : Session} {s : Bytes} (h : Represents st s)
    (hrecv : Link.recv (st.calls 0).parsed ((st.calls 0).behind.headD 0) st.input =
      some (st.input, [])) :
    ∃ st', reader.poll st = some (st', none) ∧ Represents st' s := by
  refine ⟨⟨st.input, fun i => st.calls (i + 1)⟩, ?_, h.1, fun i => h.2 (i + 1)⟩
  simp only [reader, hrecv, Option.map_some, if_true]

theorem exists_tight (r : RedisRequest) : ∃ t, r.tight = chr '*' :: t := ⟨_, rfl⟩

theorem dropWhile_rest (e : LineEnd) (t : Bytes) :
    (e.rest ++ t).dropWhile RedisLink.isLineEnd = t.dropWhile RedisLink.isLineEnd := by
  cases e with
  | lf => rfl
  | crlf => rfl

/-- A proper prefix of a request and the LF before it, without the empty lines. -/
theorem dropWhile_part (r : RedisRequest) (e : LineEnd) {s : Bytes} (hs : s <+: e.rest ++ r.tight)
    (hne : s ≠ e.rest ++ r.tight) :
    s.dropWhile RedisLink.isLineEnd <+: r.tight ∧ s.dropWhile RedisLink.isLineEnd ≠ r.tight := by
  obtain ⟨t, ht⟩ := exists_tight r
  have hhead : r.tight.head? ≠ some newline := by
    rw [ht, List.head?_cons]
    decide
  obtain ⟨hpre, hpart⟩ := RedisLink.skipNewline_part e hhead (by simp [ht]) hs hne
  have hskip : s.dropWhile RedisLink.isLineEnd =
      (RedisLink.skipNewline s).dropWhile RedisLink.isLineEnd := by
    rcases RedisLink.skipNewline_cases s with h | h
    · rw [← h]
    · rw [h]
      rfl
  have hsame : (RedisLink.skipNewline s).dropWhile RedisLink.isLineEnd = RedisLink.skipNewline s := by
    generalize RedisLink.skipNewline s = u at hpre
    cases u with
    | nil => rfl
    | cons b u =>
        rw [ht] at hpre
        obtain ⟨rfl, -⟩ := List.cons_prefix_cons.mp hpre
        rfl
  rw [hskip, hsame]
  exact ⟨hpre, hpart⟩

/-- **The link decodes Redis requests.** -/
theorem decodes : Decodes InStream IsTail reader Represents where
  enc_ne_nil := by
    rintro _ _ ⟨r, before, rfl, rfl⟩ hnil
    obtain ⟨t, ht⟩ := exists_tight r
    rw [ht] at hnil
    simp at hnil
  push := by
    rintro st s c ⟨hs, herrno⟩
    refine ⟨?_, herrno⟩
    rcases hs with rfl | rfl
    · exact Or.inl rfl
    · exact Or.inr rfl
  whole := by
    rintro _ _ ⟨r, before, rfl, rfl⟩ st rest hst
    obtain ⟨t, ht⟩ := exists_tight r
    have hptr : st.input.dropWhile RedisLink.isLineEnd = r.tight ++ rest := by
      rw [hst.dropWhile_eq, List.append_assoc, dropWhile_rest, ht]
      rfl
    have hstar : st.input.dropWhile RedisLink.isLineEnd = chr '*' :: (t ++ rest) := by
      rw [hptr, ht]
      rfl
    have hparse := RedisLink.parseReq_request r hptr (st.calls 0).behind (hst.2 0)
    have hargs : r.args ≠ [] := by simp [RedisRequest.args, r.bulks_ne_nil]
    refine ⟨⟨RedisLink.skipNewline rest, fun i => st.calls (i + 1)⟩, ?_,
      RedisLink.skipNewline_cases rest, fun i => hst.2 (i + 1)⟩
    simp only [reader, recv_star (st.calls 0) hstar, RedisCall.parsed, hparse, Option.map_some, if_neg hargs]
  part := by
    rintro _ _ ⟨r, before, rfl, rfl⟩ st s hst hs hne
    obtain ⟨hpre, hpart⟩ := dropWhile_part r before hs hne
    rw [← hst.dropWhile_eq] at hpre hpart
    apply hst.poll_wait
    by_cases hnil : st.input.dropWhile RedisLink.isLineEnd = []
    · exact recv_blank (st.calls 0) hnil
    · obtain ⟨b, u, hu⟩ := List.exists_cons_of_ne_nil hnil
      obtain ⟨t, ht⟩ := exists_tight r
      have hb : b = chr '*' := by
        rw [hu, ht] at hpre
        exact (List.cons_prefix_cons.mp hpre).1
      subst hb
      have hparse := RedisLink.parseReq_part r hpre hpart (st.calls 0).behind (by rw [hu]; rfl) (hst.2 0)
      rw [recv_star (st.calls 0) hu, RedisCall.parsed, hparse]
  tail := by
    rintro _ ⟨before, rfl⟩ st s hst hs
    apply hst.poll_wait
    apply recv_blank
    rw [hst.dropWhile_eq, List.dropWhile_eq_nil_iff]
    intro b hb
    have hmem : b ∈ before.rest := hs.subset hb
    rcases before.rest_cases with hrest | hrest
    · rw [hrest] at hmem
      exact absurd hmem List.not_mem_nil
    · rw [hrest] at hmem
      rw [List.mem_singleton.mp hmem]
      rfl

end Session

/-- **Redis requests in pieces.**  However the bytes of the requests are cut into chunks, and whatever
stands behind the input, the calls of the parser return the arguments of the requests in order and no
error, and leave nothing or a LF.  No call finds `EINVAL` in `errno`. -/
theorem redis_requests_lossless (requests : List RedisRequest) (chunks : List Bytes)
    (hchunks : chunks.flatten = requests.flatMap RedisRequest.encode) (calls : ℕ → RedisCall)
    (herrno : ∀ i, (calls i).errno ≠ einval) :
    ∃ st, Session.serve calls chunks = some (requests.map RedisRequest.args, st) ∧
      (st.input = [] ∨ st.input = [newline]) := by
  obtain ⟨items, t, hitems, ht, hargs, hstream⟩ := exists_items requests .lf
  have hbound : ∀ (st : Session) s, Session.Represents st s → s.length < st.input.length + 2 := by
    rintro st s ⟨rfl | rfl, -⟩
    · omega
    · rw [List.length_cons]
      omega
  have hstart : Session.Represents ⟨[], calls⟩ [] := ⟨Or.inl rfl, herrno⟩
  obtain ⟨st, hserve, hrep⟩ := Session.decodes.feed_eq (fun st => st.input.length + 2) hbound hstart
    hitems ht (hchunks.trans hstream)
  rw [hargs] at hserve
  refine ⟨st, hserve, ?_⟩
  -- what is left stands for the tail, at most a LF
  obtain ⟨before, rfl⟩ := ht
  rcases hrep.1 with h | h
  · rw [← h]
    exact before.rest_cases
  · rcases before.rest_cases with hrest | hrest
    · rw [hrest] at h
      cases h
    · rw [hrest] at h
      left
      exact (List.cons.inj h).2.symm

/-- `PING` and `GET k` in one stream that is cut inside a CRLF, behind which a `*` happens to stand. -/
def pingGet : List RedisRequest :=
  [⟨.crlf, [⟨ascii "PING", .crlf, .crlf, by decide⟩], by decide, by decide⟩,
    ⟨.lf, [⟨ascii "GET", .lf, .crlf, by decide⟩, ⟨ascii "*\r\n$", .crlf, .crlf, by decide⟩], by decide,
      by decide⟩]

theorem redis_requests_lossless_pingGet :
    ∃ st, Session.serve (fun _ => ⟨ascii "*", 0⟩)
        [ascii "*1\r\n$4\r\nPING\r", ascii "\n", ascii "*2\n$3\nGET\r\n$4\r\n*\r\n$\r", ascii "\n"] =
          some ([[ascii "PING"], [ascii "GET", ascii "*\r\n$"]], st) ∧
      (st.input = [] ∨ st.input = [newline]) := by
  have hserve := redis_requests_lossless pingGet
    [ascii "*1\r\n$4\r\nPING\r", ascii "\n", ascii "*2\n$3\nGET\r\n$4\r\n*\r\n$\r", ascii "\n"] (by decide)
    (fun _ => ⟨ascii "*", 0⟩) (fun _ => by decide)
  exact hserve

end Ssdb
