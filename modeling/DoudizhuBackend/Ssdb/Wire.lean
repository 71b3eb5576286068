/-
# The wire protocol and its two implementations

A packet is a list of byte strings.  On the wire each of them is a line with its length, the
bytes and a newline, and an empty line ends the packet.

* `ssdb-master/src/net/link.cpp` and `util/bytes.cpp`: `Buffer::append_record`, `Link::send`
  and `Link::recv`.  `recv` keeps no state but the input buffer: it starts again at the head
  of the packet on every call.
* `html/lib/SSDB.php`: `send`, `parse` and `recv`.  `parse` keeps a step, a block size and
  the strings read so far between two calls, and cuts what it has read off the buffer.

Each side understands the other however the stream is cut (`wire_lossless`): both readers are
lossless in the sense of `ChunkedStream.Lossless`.

The model leaves out what depends on the size of memory (the buffers grow when they are
full).  `RedisLink::recv_req`, where `Link::recv` goes when a packet starts with `*`, is a
parameter.
-/
import DoudizhuBackend.ChunkedStream
import DoudizhuBackend.Ssdb.Bytes

namespace Ssdb

open ChunkedStream

/-- The blocks of a request or of a response. -/
abbrev Packet := List Bytes

/-- The line feed. -/
def newline : Byte := chr '\n'

/-- The carriage return. -/
def carriageReturn : Byte := chr '\r'

/-! ## The C++ side -/

namespace Link

/-- `Link::MAX_PACKET_SIZE`. -/
def maxPacketSize : ℕ := 128 * 1024 * 1024

/-- What `Buffer::append_record` appends. -/
def appendRecord (s : Bytes) : Bytes := decimal s.length ++ newline :: (s ++ [newline])

/-- `Link::send`: what goes to the output buffer. -/
def send (resp : Packet) : Bytes :=
  if resp = [] then [] else resp.flatMap appendRecord ++ [newline]

/-- What one turn of the loop in `Link::recv` finds: a malformed line, the empty line that ends
the packet, a string with the number of bytes that it takes and what follows them, or too few
bytes. -/
inductive Turn where
  | bad
  | packetEnd (size : ℕ)
  | string (data : Bytes) (size : ℕ) (rest : Bytes)
  | notReady

/-- The newline behind a string of which `size` bytes have been parsed. -/
def stringEnd (data : Bytes) (size : ℕ) : Bytes → Turn
  | [] => .notReady
  | [b] => if b = newline then .string data (size + 1) [] else .notReady
  | b :: c :: rest =>
      if b = newline then .string data (size + 1) (c :: rest)
      else if b = carriageReturn ∧ c = newline then .string data (size + 2) rest
      else .bad

/-- One turn of the loop in `Link::recv`; `head` is the unparsed part of the input. -/
def turn (head : Bytes) : Turn :=
  let line := head.takeWhile (· ≠ newline)
  if line.length = head.length then .notReady
  else
    let headLen := line.length + 1
    if headLen = 1 ∨ (headLen = 2 ∧ head.head? = some carriageReturn) then .packetEnd headLen
    else if head.head?.all isDigit = false then .bad
    else if headLen > 19 then .bad  -- `sizeof(head_str) - 1`
    else
      let bodyLen := atoi line
      if bodyLen < 0 then .bad
      else
        let body := head.drop headLen
        if body.length < bodyLen.toNat then .notReady
        else
          stringEnd (body.take bodyLen.toNat) (headLen + bodyLen.toNat) (body.drop bodyLen.toNat)

/-- How the loop of `Link::recv` ends: with `NULL`, at the end of a packet (its strings and
the number of bytes parsed), or in want of more bytes. -/
inductive Parsed where
  | bad
  | packet (recvData : Packet) (parsed : ℕ)
  | notReady

/-- The loop of `Link::recv`; the length of `head` bounds the number of turns. -/
def recvLoop : ℕ → Bytes → ℕ → Packet → Parsed
  | 0, _, _, _ => .notReady
  | turns + 1, head, parsed, recvData =>
      match turn head with
      | .bad => .bad
      | .notReady => .notReady
      | .packetEnd size => .packet recvData (parsed + size)
      | .string data size rest =>
          if parsed + size > maxPacketSize then .bad
          else recvLoop turns rest (parsed + size) (recvData ++ [data])

/-- `Link::recv`: `NULL`, or the strings of a packet and the input that is left, where no
string means that the packet is not ready.  `slot` is the byte behind the input, which the
test for `*` reads when there are only empty lines. -/
def recv (redis : Bytes → Option (Bytes × Packet)) (slot : Byte) (input : Bytes) :
    Option (Bytes × Packet) :=
  if input = [] then some (input, [])
  else
    -- ignore leading empty lines
    let head := input.dropWhile fun b => b = newline ∨ b = carriageReturn
    if head.headD slot = chr '*' then redis input
    else
      match recvLoop head.length head (input.length - head.length) [] with
      | .bad => none
      | .packet recvData parsed => some (input.drop parsed, recvData)
      | .notReady => some (input, [])

/-- A link as a reader: a read appends to the input, and an empty result of `recv` is the
report that no packet is ready. -/
def reader (redis : Bytes → Option (Bytes × Packet)) (slot : Byte) : Reader Bytes Packet Byte where
  poll := fun input => (recv redis slot input).map fun r =>
    (r.1, if r.2 = [] then none else some r.2)
  push := (· ++ ·)
  start := id

/-- Every chunk that is read is followed by calls of `recv` until it reports that no packet is
ready: the packets, and the input that is left. -/
def serve (redis : Bytes → Option (Bytes × Packet)) (slot : Byte) (chunks : List Bytes) :
    Option (List Packet × Bytes) :=
  feed (reader redis slot) (fun input => input.length + 1) [] chunks

end Link

/-! ## The PHP side -/

namespace PhpClient

/-- `SSDB::send`: the text that is written to the socket. -/
def send (data : Packet) : Bytes :=
  List.intercalate [newline] (data.flatMap fun p => [decimal p.length, p]) ++ [newline, newline]

/-- What the parser reads next. -/
inductive Step where
  | size
  | data
  deriving DecidableEq

/-- The fields of `SSDB` that `recv` and `parse` use. -/
structure State where
  recvBuf : Bytes
  step : Step
  blockSize : ℕ
  resp : Packet

/-- A byte that `trim` removes. -/
def isBlank (b : Byte) : Bool := b.val == 0 || b.val == 32 || (9 ≤ b.val && b.val ≤ 11) || b.val == 13

/-- `trim`. -/
def trim (s : Bytes) : Bytes := ((s.dropWhile isBlank).reverse.dropWhile isBlank).reverse

/-- `intval` of a block size; a negative size, which no server sends, counts as 0. -/
def intval (s : Bytes) : ℕ := (strtoll s).toNat

/-- One of the two blocks in the loop of `parse`. -/
inductive Turn where
  | wait
  | packet (ret : Packet) (st : State)
  | go (st : State)

/-- The block of the current step.  `$recv_buf` is cut at `$spos` at once. -/
def turn (st : State) : Turn :=
  match st.step with
  | .size =>
      let line := st.recvBuf.takeWhile (· ≠ newline)
      if line.length = st.recvBuf.length then .wait
      else
        let rest := st.recvBuf.drop (line.length + 1)
        if trim line = [] then  -- head end
          .packet st.resp { st with recvBuf := rest, resp := [] }
        else .go { st with recvBuf := rest, blockSize := intval (trim line), step := .data }
  | .data =>
      if st.blockSize ≤ st.recvBuf.length then
        let tail := st.recvBuf.drop st.blockSize
        let line := tail.takeWhile (· ≠ newline)
        if line.length = tail.length then .wait
        else
          .go { st with
            recvBuf := tail.drop (line.length + 1)
            resp := st.resp ++ [st.recvBuf.take st.blockSize]
            step := .size }
      else .wait

/-- A block that goes on has consumed a newline. -/
theorem turn_length {st st' : State} (h : turn st = .go st') :
    st'.recvBuf.length < st.recvBuf.length := by
  unfold turn at h
  split at h
  · dsimp only at h
    split at h
    · cases h
    · rename_i hline
      have hle := (List.takeWhile_prefix (fun b => decide (b ≠ newline)) (l := st.recvBuf)).length_le
      split at h
      · cases h
      · cases h
        rw [List.length_drop]
        omega
  · dsimp only at h
    split at h
    · split at h
      · cases h
      · rename_i hline
        cases h
        have hle := (List.takeWhile_prefix (fun b => decide (b ≠ newline))
          (l := st.recvBuf.drop st.blockSize)).length_le
        rw [List.length_drop] at hline hle
        rw [List.length_drop, List.length_drop]
        omega
    · cases h

/-- `SSDB::parse`: the packet, if there is one. -/
def parse (st : State) : State × Option Packet :=
  match _h : turn st with
  | .wait => (st, none)
  | .packet ret st' => (st', some ret)
  | .go st' => parse st'
termination_by st.recvBuf.length
decreasing_by exact turn_length _h

/-- The bytes that `fread` returns join the buffer. -/
def State.push (st : State) (data : Bytes) : State := { st with recvBuf := st.recvBuf ++ data }

/-- The loop of `SSDB::recv`.  The second argument is what the calls of `fread` will return; an
empty string, and a stream that has ended, raise an exception. -/
def recvLoop : State → List Bytes → Option (Packet × State × List Bytes)
  | st, [] =>
      match parse st with
      | (st', some ret) => some (ret, st', [])
      | (_, none) => none
  | st, data :: reads =>
      match parse st with
      | (st', some ret) => some (ret, st', data :: reads)
      | (st', none) => if data = [] then none else recvLoop (st'.push data) reads

/-- `SSDB::recv`. -/
def recv (st : State) (reads : List Bytes) : Option (Packet × State × List Bytes) :=
  recvLoop { st with step := .size } reads

/-- `n` calls of `recv`. -/
def recvMany : ℕ → State → List Bytes → Option (List Packet × State × List Bytes)
  | 0, st, reads => some ([], st, reads)
  | n + 1, st, reads =>
      match recv st reads with
      | none => none
      | some (ret, st', reads') => (recvMany n st' reads').map fun r => (ret :: r.1, r.2)

/-- A client that has just connected. -/
def init : State where
  recvBuf := []
  step := .size
  blockSize := 0
  resp := []

end PhpClient

/-! ## The common encoding -/

/-- The bytes of a packet. -/
def encode (p : Packet) : Bytes := p.flatMap Link.appendRecord ++ [newline]

/-- The packets that the protocol carries. -/
def Sendable (p : Packet) : Prop := p ≠ [] ∧ (Link.send p).length < Link.maxPacketSize

/-- What is sent of a request that is not empty. -/
theorem Link.send_eq {p : Packet} (h : p ≠ []) : Link.send p = encode p := if_neg h

/-- What is sent fits the limit. -/
theorem Sendable.length_encode {p : Packet} (h : Sendable p) :
    (encode p).length < Link.maxPacketSize := by
  rw [← Link.send_eq h.1]
  exact h.2

/-- A list that ends with its separator. -/
theorem intercalate_append (sep : Bytes) {l : List Bytes} (h : l ≠ []) :
    List.intercalate sep l ++ sep = l.flatMap (· ++ sep) := by
  induction l with
  | nil => exact absurd rfl h
  | cons x l ih =>
      cases l with
      | nil => simp [List.intercalate]
      | cons y l =>
          have hcons : List.intercalate sep (x :: y :: l) = x ++ sep ++ List.intercalate sep (y :: l) := by
            simp [List.intercalate]
          rw [hcons, List.append_assoc, ih (by simp)]
          rfl

/-- The client in PHP sends the same bytes. -/
theorem PhpClient.send_eq {p : Packet} (h : p ≠ []) : PhpClient.send p = encode p := by
  have hne : (p.flatMap fun d => [decimal d.length, d]) ≠ [] := by
    cases p with
    | nil => exact absurd rfl h
    | cons d p => simp
  have hrec : ∀ l : Packet, (l.flatMap fun d => [decimal d.length, d]).flatMap (· ++ [newline]) =
      l.flatMap Link.appendRecord := by
    intro l
    induction l with
    | nil => rfl
    | cons d l ih => simp [Link.appendRecord] at ih ⊢; exact ih
  show _ ++ ([newline] ++ [newline]) = _
  rw [← List.append_assoc, intercalate_append _ hne, hrec]
  rfl

/-- A numeral has no line end. -/
theorem newline_notMem_decimal (n : ℕ) : newline ∉ decimal n := by
  intro h
  have := isDigit_of_mem_decimal h
  revert this
  decide

/-- The line up to the first newline. -/
theorem takeWhile_line {l : Bytes} (h : newline ∉ l) (t : Bytes) :
    (l ++ newline :: t).takeWhile (· ≠ newline) = l := by
  rw [List.takeWhile_append_of_pos]
  · simp
  · intro b hb
    rw [decide_eq_true_eq]
    rintro rfl
    exact h hb

/-- A text without line end is one line. -/
theorem takeWhile_of_notMem {l : Bytes} (h : newline ∉ l) : l.takeWhile (· ≠ newline) = l := by
  have hpos : ∀ b ∈ l, decide (b ≠ newline) = true := by
    intro b hb
    rw [decide_eq_true_eq]
    rintro rfl
    exact h hb
  have happend : (l ++ []).takeWhile (· ≠ newline) = l ++ [].takeWhile (· ≠ newline) :=
    List.takeWhile_append_of_pos hpos
  simpa using happend

/-- How long a block is. -/
theorem length_appendRecord (d : Bytes) :
    (Link.appendRecord d).length = (decimal d.length).length + 1 + d.length + 1 := by
  simp [Link.appendRecord]
  omega

/-- The bytes of a request, from the first block on. -/
theorem encode_cons (d : Bytes) (p : Packet) : encode (d :: p) = Link.appendRecord d ++ encode p := by
  simp [encode]

/-- How long they are. -/
theorem length_encode_cons (d : Bytes) (p : Packet) :
    (encode (d :: p)).length = (Link.appendRecord d).length + (encode p).length := by
  rw [encode_cons, List.length_append]

/-- A front of two texts ends in one of them. -/
theorem prefix_append_cases {s l t : Bytes} (h : s <+: l ++ t) :
    s <+: l ∨ ∃ u, s = l ++ u ∧ u <+: t := by
  obtain ⟨r, hr⟩ := h
  rcases List.append_eq_append_iff.mp hr with ⟨d, hd, -⟩ | ⟨d, hd, ht⟩
  · exact Or.inl ⟨d, hd.symm⟩
  · exact Or.inr ⟨d, hd, ⟨r, ht.symm⟩⟩

/-- A proper prefix of a record: part of the length, or the length and part of the string,
at most all of it. -/
theorem prefix_appendRecord {s d : Bytes} (h : s <+: Link.appendRecord d)
    (hne : s ≠ Link.appendRecord d) :
    (newline ∉ s ∧ s.length ≤ (decimal d.length).length ∧ s <+: decimal d.length) ∨
      ∃ t, s = decimal d.length ++ newline :: t ∧ t <+: d := by
  unfold Link.appendRecord at h hne
  rcases prefix_append_cases h with hpre | ⟨t, rfl, ht⟩
  · left
    refine ⟨?_, hpre.length_le, hpre⟩
    intro hmem
    exact newline_notMem_decimal _ (hpre.subset hmem)
  · cases t with
    | nil =>
        left
        rw [List.append_nil]
        exact ⟨newline_notMem_decimal _, le_rfl, List.prefix_rfl⟩
    | cons b t =>
        right
        obtain ⟨rfl, hbody⟩ := List.cons_prefix_cons.mp ht
        refine ⟨t, rfl, ?_⟩
        rcases List.prefix_concat_iff.mp hbody with rfl | hpre
        · exact absurd rfl hne
        · exact hpre

/-! ## The link reads packets -/

/-- The size of a block is read back. -/
theorem atoi_decimal {n : ℕ} (h : n < 2 ^ 31) : atoi (decimal n) = n := by
  have hread : readInt (decimal n) = n := by
    have := readInt_decimal_append n [] (by simp)
    rwa [List.append_nil] at this
  have hint : strtoll (decimal n) = n := by
    rw [strtoll, hread, min_eq_left (by omega), max_eq_right (by omega)]
  rw [atoi, hint]
  exact Int.bmod_eq_of_le_mul_two (by omega) (by omega)

/-- The first byte of a record is a digit. -/
theorem exists_digit (n : ℕ) : ∃ b u, decimal n = b :: u ∧ isDigit b = true := by
  obtain ⟨b, u, hu⟩ := List.exists_cons_of_ne_nil (decimal_ne_nil n)
  exact ⟨b, u, hu, isDigit_of_mem_decimal (n := n) (by simp [hu])⟩

/-- A digit is none of the special bytes. -/
theorem ne_newline_of_isDigit {b : Byte} (h : isDigit b = true) :
    b ≠ newline ∧ b ≠ carriageReturn ∧ b ≠ chr '*' := by
  refine ⟨?_, ?_, ?_⟩
  all_goals
    rintro rfl
    revert h
    decide

namespace Link

/-- A length line has been read: what happens with the bytes behind it. -/
theorem turn_line {n : ℕ} (hn : n < 2 ^ 31) (body : Bytes) :
    turn (decimal n ++ newline :: body) =
      if body.length < n then .notReady
      else stringEnd (body.take n) ((decimal n).length + 1 + n) (body.drop n) := by
  obtain ⟨b, u, hu, hb⟩ := exists_digit n
  have hhead : (decimal n ++ newline :: body).head? = some b := by simp [hu]
  have hlen : (decimal n).length ≤ 10 := length_decimal_le (by omega)
  have hpos : 0 < (decimal n).length := List.length_pos_iff.mpr (decimal_ne_nil n)
  have hdrop : (decimal n ++ newline :: body).drop ((decimal n).length + 1) = body := by
    rw [← List.drop_drop, List.drop_left, List.drop_one, List.tail_cons]
  simp only [turn, takeWhile_line (newline_notMem_decimal n) body, hdrop, hhead, atoi_decimal hn,
    Int.toNat_natCast]
  rw [if_neg (by simp), if_neg, if_neg (by simp [hb]), if_neg (by omega), if_neg (by omega)]
  rintro (h | ⟨-, h⟩)
  · omega
  · exact (ne_newline_of_isDigit hb).2.1 (Option.some.inj h)

theorem turn_nil : turn [] = .notReady := rfl

/-- A line end alone ends a request. -/
theorem turn_newline (t : Bytes) : turn (newline :: t) = .packetEnd 1 := by
  simp [turn]

/-- A whole block is taken. -/
theorem turn_appendRecord {d : Bytes} (hd : d.length < 2 ^ 31) (t : Bytes) :
    turn (appendRecord d ++ t) = .string d (appendRecord d).length t := by
  have hbytes : appendRecord d ++ t = decimal d.length ++ newline :: (d ++ newline :: t) := by
    simp [appendRecord]
  rw [hbytes, turn_line hd, if_neg (by simp), List.drop_left, List.take_left, length_appendRecord]
  cases t with
  | nil => simp [stringEnd]
  | cons c t => simp [stringEnd]

/-- **One record** goes to the packet, and the loop goes on behind it. -/
theorem recvLoop_appendRecord {d : Bytes} (hd : d.length < 2 ^ 31) (turns : ℕ) (t : Bytes)
    (parsed : ℕ) (data : Packet) (hfit : parsed + (appendRecord d).length ≤ maxPacketSize) :
    recvLoop (turns + 1) (appendRecord d ++ t) parsed data =
      recvLoop turns t (parsed + (appendRecord d).length) (data ++ [d]) := by
  simp only [recvLoop, turn_appendRecord hd]
  rw [if_neg (by omega)]

/-- The newline behind the records. -/
theorem recvLoop_end (turns : ℕ) (t : Bytes) (parsed : ℕ) (data : Packet) :
    recvLoop (turns + 1) (newline :: t) parsed data = .packet data (parsed + 1) := by
  simp only [recvLoop, turn_newline]

/-- The loop waits where a turn waits. -/
theorem recvLoop_notReady {head : Bytes} (h : turn head = .notReady) (turns parsed : ℕ)
    (data : Packet) : recvLoop turns head parsed data = .notReady := by
  cases turns with
  | zero => rfl
  | succ turns => simp only [recvLoop, h]

/-- A whole packet, whatever follows it. -/
theorem recvLoop_encode : ∀ (p : Packet) (turns : ℕ) (t : Bytes) (parsed : ℕ) (data : Packet),
    (encode p).length ≤ turns → parsed + (encode p).length ≤ maxPacketSize →
    recvLoop turns (encode p ++ t) parsed data = .packet (data ++ p) (parsed + (encode p).length) := by
  intro p
  induction p with
  | nil =>
      intro turns t parsed data hturns _
      obtain ⟨turns, rfl⟩ : ∃ m, turns = m + 1 := ⟨turns - 1, by simp [encode] at hturns; omega⟩
      show recvLoop (turns + 1) (newline :: t) parsed data = _
      rw [recvLoop_end, List.append_nil]
      rfl
  | cons d p ih =>
      intro turns t parsed data hturns hfit
      rw [length_encode_cons] at hturns hfit
      have hd := length_appendRecord d
      have hmax : maxPacketSize = 134217728 := rfl
      obtain ⟨turns, rfl⟩ : ∃ m, turns = m + 1 := ⟨turns - 1, by omega⟩
      rw [encode_cons, List.append_assoc, recvLoop_appendRecord (by omega) _ _ _ _ (by omega),
        ih turns t _ _ (by omega) (by omega), List.append_assoc, List.length_append]
      congr 1
      omega

/-- A proper prefix of a packet is not ready. -/
theorem recvLoop_prefix : ∀ (p : Packet) (turns : ℕ) (s : Bytes) (parsed : ℕ) (data : Packet),
    s <+: encode p → s ≠ encode p → parsed + (encode p).length ≤ maxPacketSize →
    recvLoop turns s parsed data = .notReady := by
  intro p
  induction p with
  | nil =>
      intro turns s parsed data hs hne _
      have hnil : s = [] := by
        rcases List.prefix_concat_iff.mp (show s <+: [] ++ [newline] from hs) with h | h
        · exact absurd h hne
        · exact List.prefix_nil.mp h
      rw [hnil]
      exact recvLoop_notReady turn_nil _ _ _
  | cons d p ih =>
      intro turns s parsed data hs hne hfit
      rw [length_encode_cons] at hfit
      have hd := length_appendRecord d
      have hmax : maxPacketSize = 134217728 := rfl
      rw [encode_cons] at hs hne
      rcases prefix_append_cases hs with hpre | ⟨t, rfl, ht⟩
      · by_cases heq : s = appendRecord d
        · -- the record is complete, nothing of the rest has arrived
          cases turns with
          | zero => rfl
          | succ turns =>
              have hgo := recvLoop_appendRecord (show d.length < 2 ^ 31 by omega) turns [] parsed data
                (by omega)
              rw [List.append_nil] at hgo
              rw [heq, hgo]
              exact recvLoop_notReady turn_nil _ _ _
        · apply recvLoop_notReady
          rcases prefix_appendRecord hpre heq with ⟨hno, -, -⟩ | ⟨t, rfl, ht⟩
          · simp only [turn, takeWhile_of_notMem hno, if_true]
          · rw [turn_line (by omega)]
            by_cases hlt : t.length < d.length
            · rw [if_pos hlt]
            · -- all of the string, but not its newline
              have hle := ht.length_le
              rw [if_neg hlt, List.drop_of_length_le (by omega)]
              rfl
      · cases turns with
        | zero => rfl
        | succ turns =>
            rw [recvLoop_appendRecord (by omega) _ _ _ _ (by omega)]
            apply ih _ _ _ _ ht _ (by omega)
            rintro rfl
            exact hne rfl

/-- An input that starts with a digit has no empty lines and is no Redis request. -/
theorem recv_of_digit (redis : Bytes → Option (Bytes × Packet)) (slot : Byte) {b : Byte}
    (hb : isDigit b = true) (bs : Bytes) :
    recv redis slot (b :: bs) =
      match recvLoop (b :: bs).length (b :: bs) 0 [] with
      | .bad => none
      | .packet recvData parsed => some ((b :: bs).drop parsed, recvData)
      | .notReady => some (b :: bs, []) := by
  obtain ⟨hnl, hcr, hstar⟩ := ne_newline_of_isDigit hb
  rw [recv, if_neg (List.cons_ne_nil b bs), List.dropWhile_cons_of_neg (by simp [hnl, hcr])]
  simp only [List.headD_cons, if_neg hstar, Nat.sub_self]

/-- A request starts with a digit. -/
theorem encode_starts {p : Packet} (h : p ≠ []) : ∃ b u, encode p = b :: u ∧ isDigit b = true := by
  cases p with
  | nil => exact absurd rfl h
  | cons d p =>
      obtain ⟨b, u, hu, hb⟩ := exists_digit d.length
      exact ⟨b, u ++ newline :: (d ++ [newline]) ++ encode p, by simp [encode_cons, appendRecord, hu], hb⟩

/-- **The link is a lossless reader** of the packets that the protocol carries. -/
theorem lossless (redis : Bytes → Option (Bytes × Packet)) (slot : Byte) :
    Lossless encode (reader redis slot) Sendable (fun st s => st = s) where
  enc_ne_nil := by
    intro p _
    simp [encode]
  push := by
    rintro st s c rfl
    rfl
  empty := by
    rintro st rfl
    exact ⟨[], rfl, rfl⟩
  whole := by
    rintro p hsend st rest rfl
    have hp := hsend.1
    have hsize := hsend.length_encode
    obtain ⟨b, u, hu, hb⟩ := encode_starts hp
    refine ⟨rest, ?_, rfl⟩
    have hloop := recvLoop_encode p (encode p ++ rest).length rest 0 [] (by simp) (by omega)
    have hdrop : (encode p ++ rest).drop (0 + (encode p).length) = rest := by
      rw [Nat.zero_add, List.drop_left]
    rw [hu, List.cons_append] at hloop hdrop
    rw [hu, List.cons_append]
    simp only [reader, recv_of_digit redis slot hb, hloop, hdrop, List.nil_append, Option.map_some,
      if_neg hp]
  part := by
    rintro p hsend st s rfl hpre hne
    have hp := hsend.1
    have hsize := hsend.length_encode
    refine ⟨st, ?_, rfl⟩
    cases st with
    | nil => rfl
    | cons c s =>
        obtain ⟨b, u, hu, hb⟩ := encode_starts hp
        have hc : c = b := by
          rw [hu] at hpre
          exact (List.cons_prefix_cons.mp hpre).1
        subst hc
        have hloop := recvLoop_prefix p (c :: s).length (c :: s) 0 [] hpre hne (by omega)
        simp only [reader, recv_of_digit redis slot hb, hloop, Option.map_some, if_true]

end Link

/-! ## The PHP client reads packets -/

namespace PhpClient

/-- The parser waits where a turn waits. -/
theorem parse_of_wait {st : State} (h : turn st = .wait) : parse st = (st, none) := by
  rw [parse]
  split
  · rfl
  · rename_i hturn
    rw [h] at hturn
    cases hturn
  · rename_i hturn
    rw [h] at hturn
    cases hturn

/-- It returns what a turn returns. -/
theorem parse_of_packet {st st' : State} {ret : Packet} (h : turn st = .packet ret st') :
    parse st = (st', some ret) := by
  rw [parse]
  split
  · rename_i hturn
    rw [h] at hturn
    cases hturn
  · rename_i hturn
    rw [h] at hturn
    cases hturn
    rfl
  · rename_i hturn
    rw [h] at hturn
    cases hturn

/-- And it goes on where a turn goes on. -/
theorem parse_of_go {st st' : State} (h : turn st = .go st') : parse st = parse st' := by
  rw [parse]
  split
  · rename_i hturn
    rw [h] at hturn
    cases hturn
  · rename_i hturn
    rw [h] at hturn
    cases hturn
  · rename_i hturn
    rw [h] at hturn
    cases hturn
    rfl

/-- A whole line is the same in a longer text. -/
theorem takeWhile_append {l t : Bytes} (h : (l.takeWhile (· ≠ newline)).length ≠ l.length) :
    (l ++ t).takeWhile (· ≠ newline) = l.takeWhile (· ≠ newline) := by
  rw [List.takeWhile_append, if_neg h]

/-- Bytes that arrive later do not change a block that has gone on. -/
theorem turn_push {st st' : State} (h : turn st = .go st') (data : Bytes) :
    turn (st.push data) = .go (st'.push data) := by
  obtain ⟨buf, step, size, resp⟩ := st
  cases step with
  | size =>
      have hle := (List.takeWhile_prefix (fun b => decide (b ≠ newline)) (l := buf)).length_le
      show turn ⟨buf ++ data, .size, size, resp⟩ = _
      simp only [turn] at h ⊢
      split at h
      · cases h
      · rename_i hline
        rw [takeWhile_append hline, if_neg (by rw [List.length_append]; omega),
          List.drop_append_of_le_length (by omega)]
        split at h
        · cases h
        · rename_i htrim
          cases h
          rw [if_neg htrim]
          rfl
  | data =>
      show turn ⟨buf ++ data, .data, size, resp⟩ = _
      simp only [turn] at h ⊢
      split at h
      · rename_i hblock
        have hle := (List.takeWhile_prefix (fun b => decide (b ≠ newline))
          (l := buf.drop size)).length_le
        split at h
        · cases h
        · rename_i hline
          cases h
          rw [if_pos (by rw [List.length_append]; omega), List.drop_append_of_le_length hblock,
            takeWhile_append hline, if_neg (by rw [List.length_append]; omega),
            List.drop_append_of_le_length (by omega), List.take_append_of_le_length hblock]
          rfl
      · cases h

/-- **Parsing goes on where it stopped**: what a call that found no packet leaves behind gives
the same result, with more bytes, as the state before the call. -/
theorem parse_push {st st' : State} (h : parse st = (st', none)) (data : Bytes) :
    parse (st'.push data) = parse (st.push data) := by
  induction hn : st.recvBuf.length using Nat.strong_induction_on generalizing st with
  | _ n ih =>
      cases hturn : turn st with
      | wait =>
          rw [parse_of_wait hturn] at h
          cases h
          rfl
      | packet ret st₁ =>
          rw [parse_of_packet hturn] at h
          cases h
      | go st₁ =>
          rw [parse_of_go hturn] at h
          rw [parse_of_go (turn_push hturn data)]
          exact ih _ (hn ▸ turn_length hturn) h rfl

/-- `trim` keeps a numeral. -/
theorem trim_decimal (n : ℕ) : trim (decimal n) = decimal n := by
  have hblank : ∀ {b : Byte}, isDigit b = true → isBlank b = false := by
    intro b hb
    simp only [isDigit, Bool.and_eq_true, decide_eq_true_eq] at hb
    simp only [isBlank, Bool.or_eq_false_iff, beq_eq_false_iff_ne, Bool.and_eq_false_iff,
      decide_eq_false_iff_not]
    omega
  have hdrop : ∀ l : Bytes, (∀ b ∈ l, isDigit b = true) → l.dropWhile isBlank = l := by
    intro l hl
    cases l with
    | nil => rfl
    | cons b l => rw [List.dropWhile_cons_of_neg (by simp [hblank (hl b List.mem_cons_self)])]
  have hdigits : ∀ b ∈ decimal n, isDigit b = true := fun b hb => isDigit_of_mem_decimal hb
  rw [trim, hdrop _ hdigits, hdrop _ (fun b hb => hdigits b (List.mem_reverse.mp hb)),
    List.reverse_reverse]

/-- `intval` reads a numeral. -/
theorem intval_decimal {n : ℕ} (h : n < 2 ^ 31) : intval (decimal n) = n := by
  have hread : readInt (decimal n) = n := by
    have := readInt_decimal_append n [] (by simp)
    rwa [List.append_nil] at this
  rw [intval, strtoll, hread, min_eq_left (by omega), max_eq_right (by omega), Int.toNat_natCast]

/-- The line with a length. -/
theorem turn_size {n : ℕ} (hn : n < 2 ^ 31) (t : Bytes) (size : ℕ) (resp : Packet) :
    turn ⟨decimal n ++ newline :: t, .size, size, resp⟩ = .go ⟨t, .data, n, resp⟩ := by
  have hdrop : (decimal n ++ newline :: t).drop ((decimal n).length + 1) = t := by
    rw [← List.drop_drop, List.drop_left, List.drop_one, List.tail_cons]
  simp only [turn, takeWhile_line (newline_notMem_decimal n) t, hdrop, trim_decimal,
    intval_decimal hn]
  rw [if_neg (by simp), if_neg (decimal_ne_nil n)]

/-- The string and its newline. -/
theorem turn_data (d t : Bytes) (resp : Packet) :
    turn ⟨d ++ newline :: t, .data, d.length, resp⟩ = .go ⟨t, .size, d.length, resp ++ [d]⟩ := by
  simp only [turn, List.drop_left, List.take_left]
  rw [if_pos (by simp)]
  simp

/-- A line end ends a response. -/
theorem turn_end (t : Bytes) (size : ℕ) (resp : Packet) :
    turn ⟨newline :: t, .size, size, resp⟩ = .packet resp ⟨t, .size, size, []⟩ := by
  simp [turn, trim]

/-- **One record** goes to the packet, and parsing goes on behind it. -/
theorem parse_appendRecord {d : Bytes} (hd : d.length < 2 ^ 31) (t : Bytes) (size : ℕ)
    (resp : Packet) :
    parse ⟨Link.appendRecord d ++ t, .size, size, resp⟩ =
      parse ⟨t, .size, d.length, resp ++ [d]⟩ := by
  have hbytes : Link.appendRecord d ++ t = decimal d.length ++ newline :: (d ++ newline :: t) := by
    simp [Link.appendRecord]
  rw [hbytes, parse_of_go (turn_size hd _ _ _), parse_of_go (turn_data d t resp)]

/-- A whole packet, whatever follows it. -/
theorem parse_encode : ∀ (p : Packet) (t : Bytes) (size : ℕ) (resp : Packet),
    (encode p).length < Link.maxPacketSize →
    ∃ size', parse ⟨encode p ++ t, .size, size, resp⟩ = (⟨t, .size, size', []⟩, some (resp ++ p)) := by
  intro p
  induction p with
  | nil =>
      intro t size resp _
      refine ⟨size, ?_⟩
      show parse ⟨newline :: t, .size, size, resp⟩ = _
      rw [parse_of_packet (turn_end t size resp), List.append_nil]
  | cons d p ih =>
      intro t size resp hsize
      rw [length_encode_cons] at hsize
      have hd := length_appendRecord d
      have hmax : Link.maxPacketSize = 134217728 := rfl
      obtain ⟨size', hparse⟩ := ih t d.length (resp ++ [d]) (by omega)
      refine ⟨size', ?_⟩
      rw [encode_cons, List.append_assoc, parse_appendRecord (by omega), hparse, List.append_assoc]
      rfl

/-- A proper prefix of a packet holds none. -/
theorem parse_prefix : ∀ (p : Packet) (s : Bytes) (size : ℕ) (resp : Packet),
    (encode p).length < Link.maxPacketSize → s <+: encode p → s ≠ encode p →
    (parse ⟨s, .size, size, resp⟩).2 = none := by
  intro p
  induction p with
  | nil =>
      intro s size resp _ hs hne
      have hnil : s = [] := by
        rcases List.prefix_concat_iff.mp (show s <+: [] ++ [newline] from hs) with h | h
        · exact absurd h hne
        · exact List.prefix_nil.mp h
      rw [hnil, parse_of_wait rfl]
  | cons d p ih =>
      intro s size resp hsize hs hne
      rw [length_encode_cons] at hsize
      have hd := length_appendRecord d
      have hmax : Link.maxPacketSize = 134217728 := rfl
      rw [encode_cons] at hs hne
      rcases prefix_append_cases hs with hpre | ⟨t, rfl, ht⟩
      · by_cases heq : s = Link.appendRecord d
        · -- the record is complete, nothing of the rest has arrived
          rw [heq]
          have hparse := parse_appendRecord (show d.length < 2 ^ 31 by omega) [] size resp
          rw [List.append_nil] at hparse
          rw [hparse, parse_of_wait rfl]
        · rcases prefix_appendRecord hpre heq with ⟨hno, -, -⟩ | ⟨t, rfl, ht⟩
          · rw [parse_of_wait (by simp only [turn, takeWhile_of_notMem hno, if_true])]
          · rw [parse_of_go (turn_size (by omega) _ _ _), parse_of_wait]
            simp only [turn]
            by_cases hle : d.length ≤ t.length
            · -- all of the string, but not its newline
              have heq := ht.eq_of_length_le hle
              subst heq
              simp
            · rw [if_neg hle]
      · rw [parse_appendRecord (by omega)]
        apply ih _ _ _ (by omega) ht
        rintro rfl
        exact hne rfl

/-- The client as a reader. -/
def reader : Reader State Packet Byte where
  poll := fun st => some (parse st)
  push := State.push
  start := fun st => { st with step := .size }

/-- The state `st` stands for the bytes `s` that have arrived since the last packet: more
bytes have the same effect on it as on a client that has parsed nothing of them. -/
def Stands (st : State) (s : Bytes) : Prop :=
  ∃ size, (∀ data, parse (st.push data) = parse ⟨s ++ data, .size, size, []⟩) ∧
    (s = [] → st = ⟨[], .size, size, []⟩)

theorem State.push_nil (st : State) : st.push [] = st := by
  simp [State.push]

/-- The parser stands at the front of the text that is left. -/
theorem Stands.parse_eq {st : State} {s : Bytes} (h : Stands st s) :
    ∃ size, parse st = parse ⟨s, .size, size, []⟩ ∧
      ∀ data, parse (st.push data) = parse ⟨s ++ data, .size, size, []⟩ := by
  obtain ⟨size, hpush, -⟩ := h
  refine ⟨size, ?_, hpush⟩
  have := hpush []
  rwa [State.push_nil, List.append_nil] at this

/-- A fresh parser stands at the front. -/
theorem stands_fresh (s : Bytes) (size : ℕ) : Stands ⟨s, .size, size, []⟩ s := by
  refine ⟨size, fun data => rfl, ?_⟩
  rintro rfl
  rfl

/-- **The client is a lossless reader** of the packets that the protocol carries. -/
theorem lossless : Lossless encode reader Sendable Stands where
  enc_ne_nil := by
    intro p _
    simp [encode]
  push := by
    rintro st s c ⟨size, hpush, hnil⟩
    refine ⟨size, ?_, ?_⟩
    · intro data
      have := hpush (c ++ data)
      rw [← List.append_assoc] at this
      rw [← this]
      simp [reader, State.push]
    · intro h
      obtain ⟨hs, hc⟩ := List.append_eq_nil_iff.mp h
      rw [hc]
      exact (State.push_nil st).trans (hnil hs)
  empty := by
    rintro st ⟨size, hpush, hnil⟩
    obtain rfl := hnil rfl
    refine ⟨⟨[], .size, size, []⟩, ?_, stands_fresh [] size⟩
    show some (parse _) = _
    rw [parse_of_wait rfl]
  whole := by
    intro p hsend st rest hst
    obtain ⟨size, hparse, -⟩ := hst.parse_eq
    obtain ⟨size', hpacket⟩ := parse_encode p rest size [] hsend.length_encode
    refine ⟨⟨rest, .size, size', []⟩, ?_, stands_fresh rest size'⟩
    show some (parse st) = _
    rw [hparse, hpacket, List.nil_append]
  part := by
    intro p hsend st s hst hpre hne
    by_cases hnil : s = []
    · subst hnil
      obtain ⟨size, -, hnil⟩ := hst
      obtain rfl := hnil rfl
      refine ⟨⟨[], .size, size, []⟩, ?_, stands_fresh [] size⟩
      show some (parse _) = _
      rw [parse_of_wait rfl]
    · obtain ⟨size, hparse, hpush⟩ := hst.parse_eq
      have hnone := parse_prefix p s size [] hsend.length_encode hpre hne
      rw [← hparse] at hnone
      refine ⟨(parse st).1, ?_, size, ?_, fun h => absurd h hnil⟩
      · show some (parse st) = _
        rw [← hnone]
      · intro data
        have hgo : parse ((parse st).1.push data) = parse (st.push data) :=
          parse_push (by rw [← hnone]) data
        rw [hgo]
        exact hpush data

/-- With reads that return something, `recv` is `pull`. -/
theorem recvLoop_eq_pull : ∀ (reads : List Bytes), (∀ data ∈ reads, data ≠ []) → ∀ st : State,
    pull reader st reads = (recvLoop st reads).map fun r => (r.1, reader.start r.2.1, r.2.2) := by
  intro reads
  induction reads with
  | nil =>
      intro _ st
      simp only [pull, recvLoop, reader]
      rcases parse st with ⟨st', ret | ret⟩ <;> rfl
  | cons data reads ih =>
      intro hne st
      have hdata : data ≠ [] := hne data List.mem_cons_self
      have hreads : ∀ data ∈ reads, data ≠ [] := fun d hd => hne d (List.mem_cons_of_mem _ hd)
      rw [pull, recvLoop, show reader.poll st = some (parse st) from rfl]
      rcases parse st with ⟨st', ret | ret⟩
      · simp only [if_neg hdata]
        exact ih hreads (st'.push data)
      · rfl

/-- The reads that are left are an end of the reads. -/
theorem recvLoop_suffix : ∀ (reads : List Bytes) (st : State) {ret : Packet} {st' : State}
    {reads' : List Bytes}, recvLoop st reads = some (ret, st', reads') → reads' <:+ reads := by
  intro reads
  induction reads with
  | nil =>
      intro st ret st' reads' h
      simp only [recvLoop] at h
      split at h <;> cases h
      exact List.suffix_rfl
  | cons data reads ih =>
      intro st ret st' reads' h
      simp only [recvLoop] at h
      split at h
      · cases h
        exact List.suffix_rfl
      · split at h
        · cases h
        · exact (ih _ h).trans (List.suffix_cons data reads)

/-- The loop over responses pulls them from the reader. -/
theorem recvMany_eq_pullMany : ∀ (n : ℕ) (st : State) (reads : List Bytes),
    (∀ data ∈ reads, data ≠ []) →
    pullMany reader n (reader.start st) reads =
      (recvMany n st reads).map fun r => (r.1, reader.start r.2.1, r.2.2) := by
  intro n
  induction n with
  | zero => intro st reads _; rfl
  | succ n ih =>
      intro st reads hne
      rw [pullMany, recvMany, recvLoop_eq_pull reads hne,
        show recv st reads = recvLoop (reader.start st) reads from rfl]
      cases hrecv : recvLoop (reader.start st) reads with
      | none => rfl
      | some r =>
          obtain ⟨ret, st', reads'⟩ := r
          have hsuf := recvLoop_suffix reads (reader.start st) hrecv
          simp only [Option.map_some]
          rw [ih st' reads' fun d hd => hne d (hsuf.mem hd)]
          simp [Option.map_map, Function.comp_def]

end PhpClient

/-! ## Both directions -/

/-- **The wire protocol is lossless in both directions.**  The stream is the concatenation of
the packets' bytes, cut into chunks in any way.

* What the PHP client sends is what the link receives, packet by packet, and no input is
  left.
* What the link sends is what the PHP client receives, packet by packet, and it has neither a
  read outstanding nor a byte or a string in its buffers afterwards.  A read returns at least
  one byte. -/
theorem wire_lossless (redis : Bytes → Option (Bytes × Packet)) (slot : Byte)
    (packets : List Packet) (hsend : ∀ p ∈ packets, Sendable p) (chunks : List Bytes) :
    (chunks.flatten = packets.flatMap PhpClient.send →
        Link.serve redis slot chunks = some (packets, [])) ∧
      (chunks.flatten = packets.flatMap Link.send → (∀ c ∈ chunks, c ≠ []) →
        ∃ st, PhpClient.recvMany packets.length PhpClient.init chunks = some (packets, st, []) ∧
          st.recvBuf = [] ∧ st.resp = []) := by
  constructor
  · intro hflat
    have hencode : chunks.flatten = packets.flatMap encode := by
      rw [hflat]
      apply List.flatMap_congr
      intro p hp
      exact PhpClient.send_eq (hsend p hp).1
    obtain ⟨st', hfeed, rfl⟩ := (Link.lossless redis slot).feed_eq (fun s => s.length + 1)
      (fun st s h => h ▸ Nat.lt_succ_self _) rfl hsend hencode
    exact hfeed
  · intro hflat hne
    have hencode : [] ++ chunks.flatten = packets.flatMap encode := by
      rw [List.nil_append, hflat]
      apply List.flatMap_congr
      intro p hp
      exact Link.send_eq (hsend p hp).1
    obtain ⟨st', hpull, size, -, hnil⟩ := PhpClient.lossless.pullMany_eq hsend
      (PhpClient.stands_fresh [] 0) hne hencode
    have hrecv := PhpClient.recvMany_eq_pullMany packets.length PhpClient.init chunks hne
    rw [show PhpClient.reader.start PhpClient.init = ⟨[], .size, 0, []⟩ from rfl, hpull] at hrecv
    obtain ⟨r, hr, heq⟩ := Option.map_eq_some_iff.mp hrecv.symm
    obtain ⟨got, st, rest⟩ := r
    obtain ⟨rfl, hst, rfl⟩ : got = packets ∧ PhpClient.reader.start st = st' ∧ rest = [] := by
      simpa using heq
    have hfields := hst.trans (hnil rfl)
    refine ⟨st, hr, ?_, ?_⟩
    · exact congrArg PhpClient.State.recvBuf hfields
    · exact congrArg PhpClient.State.resp hfields

/-- Three packets, one with a string that looks like the protocol. -/
def samplePackets : List Packet := [[ascii "get", ascii "k"], [ascii "3\n\nab"], [[], ascii "12"]]

/-- Their bytes, cut inside a length line, between a string and its newline, and between two
packets. -/
def sampleChunks : List Bytes :=
  [ascii "3", ascii "\nget", ascii "\n1\nk\n\n", ascii "5\n3\n\nab\n\n0\n\n2\n12\n\n"]

/-- Some packets, cut into chunks, are read back on both sides. -/
theorem wire_lossless_sample :
    (∀ p ∈ samplePackets, Sendable p) ∧
      Link.serve (fun _ => none) 0 sampleChunks = some (samplePackets, []) ∧
      ∃ st, PhpClient.recvMany 3 PhpClient.init sampleChunks = some (samplePackets, st, []) ∧
        st.recvBuf = [] ∧ st.resp = [] := by
  have hsend : ∀ p ∈ samplePackets, Sendable p := by
    intro p hp
    simp only [samplePackets, List.mem_cons, List.not_mem_nil, or_false] at hp
    rcases hp with rfl | rfl | rfl <;> exact ⟨by decide, by decide⟩
  obtain ⟨hlink, hphp⟩ := wire_lossless (fun _ => none) 0 samplePackets hsend sampleChunks
  exact ⟨hsend, hlink (by decide), hphp (by decide) (by decide)⟩

end Ssdb
