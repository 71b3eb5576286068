/-
# The buffer behind a link

`ssdb-master/src/util/bytes.cpp` and `bytes.h`: `Buffer` keeps the bytes that wait to be parsed or sent in
the middle of one allocation.  What is appended goes to the free slot behind the data, which grows when it
is too small; what is consumed leaves a gap before the data, which `nice` closes.

The buffer is a queue of bytes (`Buffer.Holds`, `QueueStep`) whatever the allocator answers, and `read_record`
takes back what `append_record` appended.  It is one as long as the sums of `int`s that announced and appended
sizes go into do not overflow and `realloc` gives memory to `shrink`, which does not look (`Buffer.Regular`).

Accesses outside the allocation are errors (`none`), and so is a `memcpy` whose ranges overlap.  Sums of
`int`s wrap around.
-/
import DoudizhuBackend.Blocks
import DoudizhuBackend.Ssdb.Wire

namespace Ssdb

/-- The members of `Buffer`; `offset` is `data_ - buf`, and no memory stands for `NULL`. -/
structure Buffer where
  buf : Bytes
  offset : ℕ
  size : ℕ
  total : ℕ

/-- What the allocator does: it has no memory, or gives some with any bytes in it. -/
abbrev MemAnswer := Option (ℕ → Byte)

/-- `realloc`; the size is a `size_t`, so that there is no memory for a negative one. -/
def realloc (answer : MemAnswer) (mem : Bytes) (n : ℤ) : Option Bytes :=
  if n < 0 then none else answer.map (Block.resize mem n.toNat)

/-- The value of a sum of `int`s. -/
def wrapInt (z : ℤ) : ℤ := z.bmod (2 ^ 32)

/-- The bytes that `memcpy` reads with `(int)` of their number, which must not be negative. -/
def argument (p : Bytes) : Option Bytes :=
  if toInt p.length < 0 then none else some (p.take (toInt p.length).toNat)

namespace Buffer

/-- The constructor. -/
def new (total : ℕ) (answer : MemAnswer) : Buffer := ⟨(realloc answer [] total).getD [], 0, 0, total⟩

/-- Where the free slot starts. -/
def slot (b : Buffer) : ℕ := b.offset + b.size

/-- `space`: what is left behind the data. -/
def space (b : Buffer) : ℕ := b.total - b.offset - b.size

/-- Bytes are written to the free slot, which then belong to the data: `incr`. -/
def fill (b : Buffer) (p : Bytes) : Option Buffer := do
  let buf ← Block.store b.buf b.slot p
  some { b with buf := buf, size := b.size + p.length }

/-- `decr`: drops data at the front. -/
def decr (b : Buffer) (num : ℕ) : Buffer := { b with size := b.size - num, offset := b.offset + num }

/-- `nice`: moves the data to the front of the memory, if it is empty or has come far. -/
def nice (b : Buffer) : Option Buffer :=
  if b.size = 0 ∨ b.total / 2 < b.offset then
    if 0 < b.size then do
      let buf ← Block.copy b.buf 0 b.offset b.size
      some { b with buf := buf, offset := 0 }
    else some { b with offset := 0 }
  else some b

/-- `shrink`, which takes what `realloc` returns. -/
def shrink (b : Buffer) (total : ℤ) (answer : MemAnswer) : Buffer :=
  let total := if total ≤ 0 then 8 * 1024 else total
  if total < b.offset + b.size then b
  else { b with total := total.toNat, buf := (realloc answer b.buf total).getD [] }

/-- The size that `grow` asks for. -/
def grownTotal (b : Buffer) : ℤ :=
  if b.total < 8 * 1024 then 8 * 1024
  else if b.total < 512 * 1024 then 8 * b.total
  else wrapInt (2 * b.total)

/-- `grow`: asks for more memory. -/
def grow (b : Buffer) (answer : MemAnswer) : ℤ × Buffer :=
  match realloc answer b.buf b.grownTotal with
  | none => (-1, b)
  | some p => (b.grownTotal, { b with buf := p, total := b.grownTotal.toNat })

/-- `while(size > this->space())`, with the answers to the calls of `grow`; the first argument bounds the
number of turns. -/
def growLoop (size : ℤ) (answers : ℕ → MemAnswer) : ℕ → ℕ → Buffer → ℤ × Buffer
  | 0, _, b => (-1, b)
  | fuel + 1, i, b =>
      if size > b.space then
        if (b.grow (answers i)).1 = -1 then (-1, b) else growLoop size answers fuel (i + 1) (b.grow (answers i)).2
      else (0, b)

/-- Every turn makes the buffer greater, which has less than `2^31` bytes. -/
def makeRoom (b : Buffer) (size : ℤ) (answers : ℕ → MemAnswer) : ℤ × Buffer :=
  growLoop size answers (2 ^ 31 - b.total + 1) 0 b

/-- `append` of some bytes. -/
def append (b : Buffer) (p : Bytes) (answers : ℕ → MemAnswer) : Option (ℤ × Buffer) :=
  let r := b.makeRoom (toInt p.length) answers
  if r.1 = -1 then some (-1, r.2)
  else do
    let b ← r.2.fill (← argument p)
    some (toInt p.length, b)

/-- `append_record`: the length, the bytes and the line ends. -/
def appendRecord (b : Buffer) (s : Bytes) (answers : ℕ → MemAnswer) : Option (ℤ × Buffer) :=
  let r := b.makeRoom (wrapInt (16 + toInt s.length + 1)) answers
  if r.1 = -1 then some (-1, r.2)
  else do
    let b := r.2
    let len := str (toInt s.length) ++ [newline]
    let data ← argument s
    let buf ← Block.store b.buf b.slot len
    let buf ← Block.store buf (b.slot + len.length) data
    let buf ← Block.store buf (b.slot + len.length + data.length) [newline]
    some (wrapInt (len.length + toInt s.length + 1),
      { b with buf := buf, size := b.size + (len.length + data.length + 1) })

/-- `read_record`: the result, and the record for the result 1. -/
def readRecord (b : Buffer) : Option (ℤ × Option Bytes × Buffer) := do
  let data ← Block.load b.buf b.offset b.size
  let line := data.takeWhile (· ≠ newline)
  -- `memchr` finds no newline
  if line.length = data.length then some (0, none, b)
  else
    let headLen := line.length + 1
    if data.head?.all isDigit = false then some (-1, none, b)
    else if 20 < headLen + 1 then some (-1, none, b)
    else
      let bodyLen := atoi line
      if bodyLen < 0 then some (-1, none, b)
      else
        let body := b.offset + headLen
        let p := body + bodyLen.toNat
        if wrapInt (headLen + bodyLen + 1) ≤ b.size then do
          let c ← Block.load b.buf p 1
          if c = [newline] then do
            let s ← Block.load b.buf body bodyLen.toNat
            some (1, some s, b.decr (headLen + bodyLen.toNat + 1))
          else if c = [carriageReturn] then
            if wrapInt (headLen + bodyLen + 2) ≤ b.size then do
              let c ← Block.load b.buf (p + 1) 1
              if c = [newline] then do
                let s ← Block.load b.buf body bodyLen.toNat
                some (1, some s, b.decr (headLen + bodyLen.toNat + 2))
              else some (-1, none, b)
            else some (0, none, b)
          else some (-1, none, b)
        else some (0, none, b)

end Buffer

/-- What is called on a buffer, with the answers of the allocator. -/
inductive BufferCall where
  | append (p : Bytes) (answers : ℕ → MemAnswer)
  | appendRecord (s : Bytes) (answers : ℕ → MemAnswer)
  | fill (p : Bytes)
  | decr (num : ℕ)
  | readRecord
  | nice
  | grow (answer : MemAnswer)
  | shrink (total : ℤ) (answer : MemAnswer)

namespace Buffer

/-- One call: its result, the record that is read, and the buffer. -/
def step (b : Buffer) : BufferCall → Option (ℤ × Option Bytes × Buffer)
  | .append p answers => (b.append p answers).map fun r => (r.1, none, r.2)
  | .appendRecord s answers => (b.appendRecord s answers).map fun r => (r.1, none, r.2)
  | .fill p => (b.fill p).map fun b => (0, none, b)
  | .decr num => some (0, none, b.decr num)
  | .readRecord => b.readRecord
  | .nice => b.nice.map fun b => (0, none, b)
  | .grow answer => some ((b.grow answer).1, none, (b.grow answer).2)
  | .shrink total answer => some (0, none, b.shrink total answer)

/-- What a list of calls replies, and the buffer after it. -/
def run : Buffer → List BufferCall → Option (List (ℤ × Option Bytes) × Buffer)
  | b, [] => some ([], b)
  | b, c :: cs => do
      let (ret, s, b) ← b.step c
      let (rs, b) ← b.run cs
      some ((ret, s) :: rs, b)

end Buffer

/-! ## The queue -/

/-- The text of a record: the number of its bytes, the bytes, and the end of a line. -/
structure IsRecordText (text s : Bytes) (head eol : Bytes) : Prop where
  text_eq : text = head ++ newline :: (s ++ eol)
  head_digit : head.head?.any isDigit = true
  head_line : newline ∉ head
  length : atoi head = s.length
  eol : eol = [newline] ∨ eol = [carriageReturn, newline]

/-- What a call does to the bytes that wait. -/
inductive QueueStep : Bytes → BufferCall → ℤ → Option Bytes → Bytes → Prop where
  | append (q p : Bytes) (answers : ℕ → MemAnswer) : QueueStep q (.append p answers) p.length none (q ++ p)
  | appendRefused (q p : Bytes) (answers : ℕ → MemAnswer) : QueueStep q (.append p answers) (-1) none q
  | appendRecord (q s : Bytes) (answers : ℕ → MemAnswer) : QueueStep q (.appendRecord s answers)
      (Link.appendRecord s).length none (q ++ Link.appendRecord s)
  | appendRecordRefused (q s : Bytes) (answers : ℕ → MemAnswer) : QueueStep q (.appendRecord s answers) (-1) none q
  | fill (q p : Bytes) : QueueStep q (.fill p) 0 none (q ++ p)
  | decr (q : Bytes) {num : ℕ} (h : num ≤ q.length) : QueueStep q (.decr num) 0 none (q.drop num)
  | readRecord {text s head eol : Bytes} (h : IsRecordText text s head eol) (q : Bytes) :
      QueueStep (text ++ q) .readRecord 1 (some s) q
  | readNothing (q : Bytes) {ret : ℤ} (h : ret = 0 ∨ ret = -1) : QueueStep q .readRecord ret none q
  | nice (q : Bytes) : QueueStep q .nice 0 none q
  | grow (q : Bytes) (answer : MemAnswer) (ret : ℤ) : QueueStep q (.grow answer) ret none q
  | shrink (q : Bytes) (total : ℤ) (answer : MemAnswer) : QueueStep q (.shrink total answer) 0 none q

/-- The replies of a queue of bytes to a list of calls. -/
inductive QueueRun : Bytes → List BufferCall → List (ℤ × Option Bytes) → Bytes → Prop where
  | nil (q : Bytes) : QueueRun q [] [] q
  | cons {q q' q'' : Bytes} {c : BufferCall} {cs : List BufferCall} {ret : ℤ} {s : Option Bytes}
      {rs : List (ℤ × Option Bytes)} (h : QueueStep q c ret s q') (hs : QueueRun q' cs rs q'') :
      QueueRun q (c :: cs) ((ret, s) :: rs) q''

/-- `read_record` of the bytes that wait: the result, the record, and the number of bytes it takes. -/
def parseRecord (q : Bytes) : ℤ × Option Bytes × ℕ :=
  let line := q.takeWhile (· ≠ newline)
  if line.length = q.length then (0, none, 0)
  else if q.head?.all isDigit = false ∨ 19 < line.length + 1 ∨ atoi line < 0 then (-1, none, 0)
  else
    let body := (q.drop (line.length + 1)).take (atoi line).toNat
    let n := line.length + 1 + (atoi line).toNat
    match q.drop n with
    | [] => (0, none, 0)
    | c :: t =>
        if c = newline then (1, some body, n + 1)
        else if c = carriageReturn then
          match t with
          | [] => (0, none, 0)
          | c :: _ => if c = newline then (1, some body, n + 2) else (-1, none, 0)
        else (-1, none, 0)

/-- The first line announces a record that ends before the byte `n`. -/
def Announces (q : Bytes) (n : ℕ) : Prop :=
  let line := q.takeWhile (· ≠ newline)
  ¬ (line.length = q.length ∨ q.head?.all isDigit = false ∨ 19 < line.length + 1 ∨ atoi line < 0) ∧
    n = line.length + 1 + (atoi line).toNat

namespace Buffer

/-- The bytes that wait. -/
def data (b : Buffer) : Bytes := (b.buf.drop b.offset).take b.size

/-- The calls that the buffer is made for: the free slot is not left, no more is consumed than there is, and no
sum of `int`s overflows; and the memory that `shrink` takes is there. -/
def Regular (b : Buffer) : BufferCall → Prop
  | .append p _ => p.length < 2 ^ 31
  | .appendRecord s _ => s.length + 17 < 2 ^ 31
  | .fill p => p.length ≤ b.space
  | .decr num => num ≤ b.size
  | .readRecord => ∀ n, Announces b.data n →
      n + 1 < 2 ^ 31 ∧ (b.data[n]? = some carriageReturn → n + 2 < 2 ^ 31)
  | .shrink total answer =>
      total < 2 ^ 31 ∧ ((if total ≤ 0 then 8 * 1024 else total) < b.offset + b.size ∨ answer.isSome)
  | _ => True

/-- All calls of a run are regular. -/
def RegularRun : Buffer → List BufferCall → Prop
  | _, [] => True
  | b, c :: cs => b.Regular c ∧ ∀ ret s b', b.step c = some (ret, s, b') → RegularRun b' cs

/-- **The invariant**: the data lies inside the allocation and is what waits. -/
structure Holds (b : Buffer) (q : Bytes) : Prop where
  total_lt : b.total < 2 ^ 31
  memory : b.buf.length = b.total
  inside : b.offset + b.size ≤ b.total
  data : Block.load b.buf b.offset b.size = some q

variable {b : Buffer} {q : Bytes}

theorem holds_new {total : ℕ} (h : total < 2 ^ 31) (mem : ℕ → Byte) : (new total (some mem)).Holds [] := by
  have hnew : new total (some mem) = ⟨Block.resize [] total mem, 0, 0, total⟩ := by
    rw [new, realloc, if_neg (by omega)]
    rfl
  rw [hnew]
  exact ⟨h, Block.length_resize _ _ _, Nat.zero_le _, Block.load_zero (Nat.zero_le _)⟩

namespace Holds

theorem length_eq (h : b.Holds q) : q.length = b.size := Block.length_of_load h.data

theorem data_eq (h : b.Holds q) : b.data = q := (Block.load_eq_some.mp h.data).2.symm

/-- What is stored in the free slot waits behind the data. -/
theorem store (h : b.Holds q) {p : Bytes} (hp : p.length ≤ b.space) :
    ∃ buf, Block.store b.buf b.slot p = some buf ∧ Holds { b with buf := buf, size := b.size + p.length } (q ++ p) := by
  have hinside := h.inside
  have hmemory := h.memory
  rw [space] at hp
  obtain ⟨buf, hstore, hlength⟩ := Block.exists_store b.buf b.slot p (by
    rw [slot]
    omega)
  refine ⟨buf, hstore, h.total_lt, hlength.trans hmemory, ?_, Block.load_store_append h.data hstore⟩
  dsimp only
  omega

theorem fill (h : b.Holds q) {p : Bytes} (hp : p.length ≤ b.space) :
    ∃ b', b.fill p = some b' ∧ b'.Holds (q ++ p) := by
  obtain ⟨buf, hstore, hholds⟩ := h.store hp
  exact ⟨_, by simp [Buffer.fill, hstore], hholds⟩

theorem decr (h : b.Holds q) {num : ℕ} (hnum : num ≤ b.size) : (b.decr num).Holds (q.drop num) where
  total_lt := h.total_lt
  memory := h.memory
  inside := by
    have := h.inside
    simp only [Buffer.decr]
    omega
  data := Block.load_drop h.data hnum

/-- In the second half the data is shorter than the gap before it. -/
theorem apart (h : b.Holds q) (hhalf : b.total / 2 < b.offset) : b.size ≤ b.offset := by
  have := h.inside
  omega

theorem nice (h : b.Holds q) : ∃ b', b.nice = some b' ∧ b'.Holds q := by
  have hinside := h.inside
  have hmemory := h.memory
  rw [Buffer.nice]
  split_ifs with hmove hsize
  · have hhalf : b.total / 2 < b.offset := hmove.resolve_left (by omega)
    obtain ⟨buf, hcopy, hlength, hload⟩ := Block.exists_copy 0
      (Or.inl (by have := h.apart hhalf; omega)) h.data (by omega)
    refine ⟨{ b with buf := buf, offset := 0 }, by rw [hcopy]; rfl, h.total_lt, hlength.trans hmemory, ?_, hload⟩
    dsimp only
    omega
  · have hzero : b.size = 0 := by omega
    have hq : q = [] := List.eq_nil_of_length_eq_zero (h.length_eq.trans hzero)
    refine ⟨{ b with offset := 0 }, rfl, h.total_lt, hmemory, ?_, ?_⟩
    · dsimp only
      omega
    · dsimp only
      rw [hzero, hq]
      exact Block.load_zero (Nat.zero_le _)
  · exact ⟨b, rfl, h⟩

/-- New memory that the data fits in. -/
theorem resize (h : b.Holds q) {n : ℕ} (hn : n < 2 ^ 31) (hfits : b.offset + b.size ≤ n) (fresh : ℕ → Byte) :
    Holds { b with buf := Block.resize b.buf n fresh, total := n } q :=
  ⟨hn, Block.length_resize _ _ _, hfits, Block.load_resize h.data hfits fresh⟩

theorem shrink (h : b.Holds q) {total : ℤ} {answer : MemAnswer}
    (hregular : b.Regular (.shrink total answer)) : (b.shrink total answer).Holds q := by
  obtain ⟨hlt, hanswer⟩ := hregular
  rw [Buffer.shrink]
  generalize hn : (if total ≤ 0 then 8 * 1024 else total) = n at hanswer ⊢
  have hn' : 0 < n ∧ n < 2 ^ 31 := by
    rw [← hn]
    split_ifs <;> omega
  split_ifs with hrefused
  · exact h
  · obtain ⟨fresh, rfl⟩ := Option.isSome_iff_exists.mp (hanswer.resolve_left hrefused)
    rw [realloc, if_neg (by omega)]
    exact h.resize (by omega) (by omega) fresh

/-- What `grow` asks for is more, unless it is negative. -/
theorem grownTotal_bounds (h : b.total < 2 ^ 31) :
    (b.total < b.grownTotal ∧ b.grownTotal < 2 ^ 31) ∨ (b.grownTotal < 0 ∧ 2 ^ 30 ≤ b.total) := by
  rw [grownTotal]
  split_ifs
  · omega
  · omega
  · by_cases hhalf : b.total < 2 ^ 30
    · have hwrap : wrapInt (2 * b.total) = 2 * b.total := Int.bmod_eq_of_le (by omega) (by omega)
      rw [hwrap]
      omega
    · have hwrap : wrapInt (2 * b.total) = 2 * b.total - 2 ^ 32 := by
        have hsame : wrapInt (2 * b.total) = wrapInt (2 * b.total - 2 ^ 32) := by
          rw [wrapInt, wrapInt]
          exact (Int.sub_bmod_right _ _).symm
        rw [hsame]
        exact Int.bmod_eq_of_le (by omega) (by omega)
      rw [hwrap]
      omega

/-- `grow` leaves the buffer alone, or gives it more memory. -/
theorem grow (h : b.Holds q) (answer : MemAnswer) :
    ((b.grow answer).1 = -1 ∧ (b.grow answer).2 = b ∧ (answer = none ∨ 2 ^ 30 ≤ b.total)) ∨
    ((b.grow answer).1 ≠ -1 ∧ (b.grow answer).2.Holds q ∧ b.total < (b.grow answer).2.total ∧
      (b.grow answer).2.slot = b.slot) := by
  have hinside := h.inside
  rcases grownTotal_bounds h.total_lt with ⟨hmore, hlt⟩ | ⟨hneg, hhalf⟩
  · cases answer with
    | none =>
        left
        simp [Buffer.grow, realloc]
    | some fresh =>
        right
        have hgrow : b.grow (some fresh) = (b.grownTotal,
            { b with buf := Block.resize b.buf b.grownTotal.toNat fresh, total := b.grownTotal.toNat }) := by
          rw [Buffer.grow, realloc, if_neg (by omega)]
          rfl
        rw [hgrow]
        refine ⟨?_, h.resize (by omega) (by omega) fresh, ?_, rfl⟩
        · dsimp only
          omega
        · dsimp only
          omega
  · left
    have hgrow : b.grow answer = (-1, b) := by
      rw [Buffer.grow, realloc, if_pos hneg]
    rw [hgrow]
    exact ⟨rfl, rfl, Or.inr hhalf⟩

/-- The loop ends with enough room, or the allocator had no memory, or more than `2^30` bytes are wanted. -/
theorem growLoop {size : ℤ} {answers : ℕ → MemAnswer} : ∀ {fuel i : ℕ} {b : Buffer}, b.Holds q →
    2 ^ 31 - b.total < fuel →
    (growLoop size answers fuel i b).2.Holds q ∧
    (((growLoop size answers fuel i b).1 = 0 ∧ size ≤ (growLoop size answers fuel i b).2.space) ∨
      ((growLoop size answers fuel i b).1 = -1 ∧ ((∃ j, answers j = none) ∨ 2 ^ 30 < b.slot + size))) := by
  intro fuel
  induction fuel with
  | zero => intro i b h hfuel; exact absurd hfuel (Nat.not_lt_zero _)
  | succ fuel ih =>
      intro i b h hfuel
      have hinside := h.inside
      rw [Buffer.growLoop]
      by_cases hroom : size > b.space
      · rw [if_pos hroom]
        rcases h.grow (answers i) with ⟨hret, -, hwhy⟩ | ⟨hret, hgrown, hmore, hslot⟩
        · rw [if_pos hret]
          refine ⟨h, Or.inr ⟨rfl, ?_⟩⟩
          rcases hwhy with hnone | hhalf
          · exact Or.inl ⟨i, hnone⟩
          · right
            rw [space] at hroom
            rw [slot]
            push_cast
            omega
        · rw [if_neg hret, ← hslot]
          have := hgrown.total_lt
          exact ih hgrown (by omega)
      · rw [if_neg hroom]
        exact ⟨h, Or.inl ⟨rfl, not_lt.mp hroom⟩⟩

theorem makeRoom (h : b.Holds q) (size : ℤ) (answers : ℕ → MemAnswer) :
    (b.makeRoom size answers).2.Holds q ∧
    (((b.makeRoom size answers).1 = 0 ∧ size ≤ (b.makeRoom size answers).2.space) ∨
      ((b.makeRoom size answers).1 = -1 ∧ ((∃ j, answers j = none) ∨ 2 ^ 30 < b.slot + size))) :=
  h.growLoop (Nat.lt_succ_self _)

theorem argument_eq {p : Bytes} (hp : p.length < 2 ^ 31) : argument p = some p := by
  rw [argument, toInt_of_lt hp, if_neg (by omega), Int.toNat_natCast, List.take_length]

/-- `append` puts the bytes behind the data, or nothing when there is no memory. -/
theorem append (h : b.Holds q) {p : Bytes} (hp : p.length < 2 ^ 31) (answers : ℕ → MemAnswer) :
    ∃ ret b', b.append p answers = some (ret, b') ∧
      ((ret = p.length ∧ b'.Holds (q ++ p)) ∨
        (ret = -1 ∧ b'.Holds q ∧ ((∃ j, answers j = none) ∨ 2 ^ 30 < b.slot + p.length))) := by
  have hroom := h.makeRoom (toInt p.length) answers
  rw [Buffer.append]
  generalize b.makeRoom (toInt p.length) answers = r at hroom ⊢
  obtain ⟨ret, b₁⟩ := r
  rw [toInt_of_lt hp] at hroom ⊢
  obtain ⟨hholds, ⟨hret, hspace⟩ | ⟨hret, hwhy⟩⟩ := hroom
  · dsimp only at hholds hret hspace ⊢
    subst hret
    obtain ⟨b', hfill, hb'⟩ := hholds.fill (p := p) (by omega)
    refine ⟨p.length, b', ?_, Or.inl ⟨rfl, hb'⟩⟩
    simp [argument_eq hp, hfill]
  · dsimp only at hholds hret hwhy ⊢
    subst hret
    refine ⟨-1, b₁, by simp, Or.inr ⟨rfl, hholds, ?_⟩⟩
    rcases hwhy with hnone | hmuch
    · exact Or.inl hnone
    · right
      omega

/-- `append_record` puts a record behind the data, or nothing when there is no memory. -/
theorem appendRecord (h : b.Holds q) {s : Bytes} (hs : s.length + 17 < 2 ^ 31) (answers : ℕ → MemAnswer) :
    ∃ ret b', b.appendRecord s answers = some (ret, b') ∧
      ((ret = (Link.appendRecord s).length ∧ b'.Holds (q ++ Link.appendRecord s)) ∨
        (ret = -1 ∧ b'.Holds q ∧ ((∃ j, answers j = none) ∨ 2 ^ 30 < b.slot + s.length + 17))) := by
  have hwanted : wrapInt (16 + toInt s.length + 1) = s.length + 17 := by
    rw [toInt_of_lt (by omega), wrapInt]
    exact (Int.bmod_eq_of_le (by omega) (by omega)).trans (by omega)
  have hroom := h.makeRoom (wrapInt (16 + toInt s.length + 1)) answers
  rw [Buffer.appendRecord]
  generalize b.makeRoom (wrapInt (16 + toInt s.length + 1)) answers = r at hroom ⊢
  obtain ⟨ret, b₁⟩ := r
  rw [hwanted] at hroom
  obtain ⟨hholds, ⟨hret, hspace⟩ | ⟨hret, hwhy⟩⟩ := hroom
  · dsimp only at hholds hret hspace ⊢
    subst hret
    -- the three pieces one after the other
    have hdigits : (decimal s.length).length ≤ 9 + 1 := length_decimal_le (by omega)
    have hline : (decimal s.length ++ [newline]).length ≤ 11 := by
      rw [List.length_append, List.length_singleton]
      omega
    rw [space] at hspace
    obtain ⟨buf₁, hstore₁, hholds₁⟩ := hholds.store (p := decimal s.length ++ [newline]) (by
      rw [space]
      omega)
    obtain ⟨buf₂, hstore₂, hholds₂⟩ := hholds₁.store (p := s) (by
      dsimp only [space]
      omega)
    obtain ⟨buf₃, hstore₃, hholds₃⟩ := hholds₂.store (p := [newline]) (by
      dsimp only [space]
      rw [List.length_singleton]
      omega)
    have hlength : (Link.appendRecord s).length = (decimal s.length ++ [newline]).length + s.length + 1 := by
      simp only [Link.appendRecord, List.length_append, List.length_cons, List.length_nil]
      omega
    have hret : wrapInt ((decimal s.length ++ [newline]).length + (s.length : ℤ) + 1) =
        (Link.appendRecord s).length := by
      rw [hlength, wrapInt]
      exact (Int.bmod_eq_of_le (by omega) (by omega)).trans (by omega)
    have hsame : q ++ (decimal s.length ++ [newline]) ++ s ++ [newline] = q ++ Link.appendRecord s := by
      simp [Link.appendRecord]
    rw [hsame] at hholds₃
    refine ⟨_, _, ?_, Or.inl ⟨rfl, hholds₃⟩⟩
    simp only [slot, Nat.add_assoc] at hstore₁ hstore₂ hstore₃
    simp only [toInt_of_lt (show s.length < 2 ^ 31 by omega), str_natCast,
      argument_eq (show s.length < 2 ^ 31 by omega), hret]
    rw [if_neg (by decide)]
    simp only [slot, Nat.add_assoc, hstore₁, hstore₂, hstore₃, Option.bind_eq_bind, Option.bind_some,
      List.length_singleton]
  · dsimp only at hholds hret hwhy ⊢
    subst hret
    refine ⟨-1, b₁, by simp, Or.inr ⟨rfl, hholds, ?_⟩⟩
    rcases hwhy with hnone | hmuch
    · exact Or.inl hnone
    · right
      omega

/-- `read_record` parses the bytes that wait, and takes those of the record. -/
theorem readRecord_eq (h : b.Holds q) (hregular : b.Regular .readRecord) :
    b.readRecord = some ((parseRecord q).1, (parseRecord q).2.1, b.decr (parseRecord q).2.2) := by
  have hsize := h.length_eq
  have hzero : b.decr 0 = b := rfl
  rw [Buffer.readRecord, h.data, parseRecord]
  simp only [Option.bind_eq_bind, Option.bind_some]
  by_cases hnone : (q.takeWhile (· ≠ newline)).length = q.length
  · rw [if_pos hnone, if_pos hnone, hzero]
  by_cases hdigit : q.head?.all isDigit = false
  · rw [if_neg hnone, if_pos hdigit, if_neg hnone, if_pos (Or.inl hdigit), hzero]
  by_cases hlong : 20 < (q.takeWhile (· ≠ newline)).length + 1 + 1
  · rw [if_neg hnone, if_neg hdigit, if_pos hlong, if_neg hnone, if_pos (Or.inr (Or.inl (by omega))), hzero]
  by_cases hneg : atoi (q.takeWhile (· ≠ newline)) < 0
  · rw [if_neg hnone, if_neg hdigit, if_neg hlong, if_pos hneg, if_neg hnone, if_pos (Or.inr (Or.inr hneg)), hzero]
  have hgood : ¬ (q.head?.all isDigit = false ∨ 19 < (q.takeWhile (· ≠ newline)).length + 1 ∨
      atoi (q.takeWhile (· ≠ newline)) < 0) := by
    rintro (hbad | hbad | hbad)
    · exact hdigit hbad
    · omega
    · exact hneg hbad
  rw [if_neg hnone, if_neg hdigit, if_neg hlong, if_neg hneg, if_neg hnone, if_neg hgood]
  -- the sums of the code are those of the numbers
  generalize hn : (q.takeWhile (· ≠ newline)).length + 1 + (atoi (q.takeWhile (· ≠ newline))).toNat = n
  have hannounces : Announces q n := ⟨fun hbad => hbad.elim hnone hgood, hn.symm⟩
  obtain ⟨hlt, hlt'⟩ := hregular n (h.data_eq.symm ▸ hannounces)
  rw [h.data_eq] at hlt'
  generalize hline : q.takeWhile (· ≠ newline) = line at *
  obtain ⟨bodyLen, hbody⟩ := Int.eq_ofNat_of_zero_le (not_lt.mp hneg)
  rw [hbody, Int.toNat_natCast] at hn ⊢
  have hwrap : ∀ k : ℕ, n + k < 2 ^ 31 → wrapInt (↑(line.length + 1) + (bodyLen : ℤ) + k) = ((n + k : ℕ) : ℤ) := by
    intro k hk
    rw [wrapInt]
    exact (Int.bmod_eq_of_le (by omega) (by omega)).trans (by omega)
  have hload : ∀ {t : Bytes} {c : Byte} {k : ℕ}, q.drop (n + k) = c :: t →
      Block.load b.buf (b.offset + (line.length + 1) + bodyLen + k) 1 = some [c] := by
    intro t c k ht
    have hlength := congrArg List.length ht
    rw [List.length_drop, List.length_cons] at hlength
    have hpart := Block.load_part h.data (i := n + k) (k := 1) (by omega)
    rw [ht] at hpart
    rw [← hn] at hpart
    simpa only [Nat.add_assoc, List.take_succ_cons, List.take_zero] using hpart
  have hrecord : n ≤ b.size → Block.load b.buf (b.offset + (line.length + 1)) bodyLen =
      some ((q.drop (line.length + 1)).take bodyLen) := by
    intro hle
    exact Block.load_part h.data (by omega)
  have hone := hwrap 1 hlt
  rw [Nat.cast_one] at hone
  rw [hone]
  cases hrest : q.drop n with
  | nil =>
      have hshort : q.length ≤ n := List.drop_eq_nil_iff.mp hrest
      rw [if_neg (by omega), hzero]
  | cons c t =>
      have hlength := congrArg List.length hrest
      rw [List.length_drop, List.length_cons] at hlength
      have hfirst := hload (k := 0) hrest
      rw [Nat.add_zero] at hfirst
      rw [if_pos (by omega), hfirst, Option.bind_some, hrecord (by omega), Option.bind_some]
      dsimp only
      by_cases hc : c = newline
      · rw [if_pos (by rw [hc]), if_pos hc, ← hn]
      rw [if_neg (by simpa using hc), if_neg hc]
      by_cases hreturn : c = carriageReturn
      · have hget : q[n]? = some carriageReturn := by
          rw [← hreturn, ← List.head?_drop, hrest]
          rfl
        have htwo := hwrap 2 (hlt' hget)
        rw [Nat.cast_ofNat] at htwo
        rw [if_pos (by rw [hreturn]), if_pos hreturn, htwo]
        cases t with
        | nil =>
            rw [List.length_nil] at hlength
            rw [if_neg (by omega), hzero]
        | cons c' t =>
            rw [List.length_cons] at hlength
            have hdrop : q.drop (n + 1) = c' :: t := by
              rw [← List.drop_drop, hrest]
              rfl
            rw [if_pos (by omega), hload hdrop, Option.bind_some]
            by_cases hc' : c' = newline
            · rw [if_pos (by rw [hc']), Option.bind_some]
              simp only [if_pos hc']
            · rw [if_neg (by simpa using hc')]
              simp only [if_neg hc', hzero]
      · rw [if_neg (by simpa using hreturn), if_neg hreturn, hzero]

end Holds

end Buffer

/-! ## Records in the queue -/

/-- What `parseRecord` finds behind the first line, which announces `bodyLen` bytes. -/
def parseBody (bodyLen headLen : ℕ) (rest : Bytes) : ℤ × Option Bytes × ℕ :=
  match rest.drop bodyLen with
  | [] => (0, none, 0)
  | c :: t =>
      if c = newline then (1, some (rest.take bodyLen), headLen + bodyLen + 1)
      else if c = carriageReturn then
        match t with
        | [] => (0, none, 0)
        | c :: _ => if c = newline then (1, some (rest.take bodyLen), headLen + bodyLen + 2) else (-1, none, 0)
      else (-1, none, 0)

theorem parseRecord_line {line rest : Bytes} (hline : newline ∉ line) :
    parseRecord (line ++ newline :: rest) =
      if (line ++ [newline]).head?.all isDigit = false ∨ 19 < line.length + 1 ∨ atoi line < 0 then (-1, none, 0)
      else parseBody (atoi line).toNat (line.length + 1) rest := by
  have hhead : (line ++ newline :: rest).head? = (line ++ [newline]).head? := by
    cases line <;> rfl
  have hdrop : ∀ k, (line ++ newline :: rest).drop (line.length + 1 + k) = rest.drop k := by
    intro k
    rw [Nat.add_assoc, ← List.drop_drop, List.drop_left, Nat.add_comm 1 k]
    rfl
  have hbody := hdrop 0
  rw [Nat.add_zero, List.drop_zero] at hbody
  rw [parseRecord, takeWhile_line hline]
  simp only [hhead, hdrop, hbody]
  rw [if_neg (by simp)]
  rfl

/-- Without a newline there is no record. -/
theorem parseRecord_of_notMem {q : Bytes} (h : newline ∉ q) : parseRecord q = (0, none, 0) := by
  rw [parseRecord, takeWhile_of_notMem h, if_pos rfl]

/-- What `parseRecord` finds is a record, or nothing. -/
theorem queueStep_parseRecord (q : Bytes) :
    QueueStep q .readRecord (parseRecord q).1 (parseRecord q).2.1 (q.drop (parseRecord q).2.2) := by
  have hnothing : ∀ ret : ℤ, ret = 0 ∨ ret = -1 → QueueStep q .readRecord ret none (q.drop 0) :=
    fun ret h => .readNothing q h
  by_cases hnewline : newline ∈ q
  · obtain ⟨line, rest, rfl, hline⟩ := List.eq_append_cons_of_mem hnewline
    rw [parseRecord_line hline]
    split_ifs with hbad
    · exact hnothing _ (Or.inr rfl)
    · simp only [not_or, Bool.not_eq_false, not_lt] at hbad
      obtain ⟨hdigit, -, hneg⟩ := hbad
      -- the text of a record with the given end
      have hrecord : ∀ (eol : Bytes) {t : Bytes}, eol = [newline] ∨ eol = [carriageReturn, newline] →
          rest.drop (atoi line).toNat = eol ++ t →
          QueueStep (line ++ newline :: rest) .readRecord 1 (some (rest.take (atoi line).toNat))
            ((line ++ newline :: rest).drop (line.length + 1 + (atoi line).toNat + eol.length)) := by
        intro eol t heol ht
        have hlength := congrArg List.length ht
        have hpos : 0 < eol.length := by
          rcases heol with rfl | rfl <;> exact Nat.succ_pos _
        rw [List.length_drop, List.length_append] at hlength
        have hsplit : line ++ newline :: rest =
            (line ++ newline :: (rest.take (atoi line).toNat ++ eol)) ++ t := by
          rw [List.append_assoc, List.cons_append, List.append_assoc, ← ht, List.take_append_drop]
        have htext : (line ++ newline :: (rest.take (atoi line).toNat ++ eol)).length =
            line.length + 1 + (atoi line).toNat + eol.length := by
          simp only [List.length_append, List.length_cons, List.length_take]
          omega
        rw [hsplit, ← htext, List.drop_left]
        refine .readRecord ⟨rfl, ?_, hline, ?_, heol⟩ t
        · cases line with
          | nil => exact absurd hdigit (by decide)
          | cons b line => exact hdigit
        · rw [List.length_take, Nat.min_eq_left (by omega)]
          omega
      rw [parseBody]
      cases ht : rest.drop (atoi line).toNat with
      | nil => exact hnothing _ (Or.inl rfl)
      | cons c t =>
          dsimp only
          split_ifs with hc hreturn
          · rw [hc] at ht
            exact hrecord [newline] (Or.inl rfl) ht
          · cases t with
            | nil => exact hnothing _ (Or.inl rfl)
            | cons c' t =>
                dsimp only
                split_ifs with hc'
                · rw [hreturn, hc'] at ht
                  exact hrecord [carriageReturn, newline] (Or.inr rfl) ht
                · exact hnothing _ (Or.inr rfl)
          · exact hnothing _ (Or.inr rfl)
  · rw [parseRecord_of_notMem hnewline]
    exact hnothing _ (Or.inl rfl)

theorem parseRecord_decimal {n : ℕ} (hn : n < 2 ^ 31) (rest : Bytes) :
    parseRecord (decimal n ++ newline :: rest) = parseBody n ((decimal n).length + 1) rest := by
  obtain ⟨b, u, hu, hb⟩ := exists_digit n
  have hlength : (decimal n).length ≤ 9 + 1 := length_decimal_le (by omega)
  rw [parseRecord_line (newline_notMem_decimal n), atoi_decimal hn, Int.toNat_natCast, if_neg]
  rintro (hbad | hbad | hbad)
  · rw [hu] at hbad
    simp [hb] at hbad
  · omega
  · omega

/-- **`read_record` takes back what `append_record` appended.** -/
theorem parseRecord_appendRecord {s : Bytes} (hs : s.length < 2 ^ 31) (rest : Bytes) :
    parseRecord (Link.appendRecord s ++ rest) = (1, some s, (Link.appendRecord s).length) := by
  have htext : Link.appendRecord s ++ rest = decimal s.length ++ newline :: (s ++ newline :: rest) := by
    simp [Link.appendRecord]
  rw [htext, parseRecord_decimal hs, parseBody, List.drop_left, List.take_left, length_appendRecord]
  rfl

/-- It takes nothing of a record that is not complete. -/
theorem parseRecord_incomplete {q s : Bytes} (hs : s.length < 2 ^ 31) (hq : q <+: Link.appendRecord s)
    (hne : q ≠ Link.appendRecord s) : parseRecord q = (0, none, 0) := by
  rcases prefix_appendRecord hq hne with ⟨hnone, -, -⟩ | ⟨t, rfl, ht⟩
  · exact parseRecord_of_notMem hnone
  · rw [parseRecord_decimal hs, parseBody, List.drop_eq_nil_of_le ht.length_le]

theorem parseBody_le (bodyLen headLen : ℕ) (rest : Bytes) :
    (parseBody bodyLen headLen rest).2.2 ≤ headLen + rest.length := by
  rw [parseBody]
  cases ht : rest.drop bodyLen with
  | nil => exact Nat.zero_le _
  | cons c t =>
      have hlength := congrArg List.length ht
      rw [List.length_drop, List.length_cons] at hlength
      dsimp only
      split_ifs
      · dsimp only
        omega
      · cases t with
        | nil => exact Nat.zero_le _
        | cons c' t =>
            rw [List.length_cons] at hlength
            dsimp only
            split_ifs
            · dsimp only
              omega
            · exact Nat.zero_le _
      · exact Nat.zero_le _

/-- The bytes that `read_record` takes are there. -/
theorem parseRecord_le (q : Bytes) : (parseRecord q).2.2 ≤ q.length := by
  by_cases hnewline : newline ∈ q
  · obtain ⟨line, rest, rfl, hline⟩ := List.eq_append_cons_of_mem hnewline
    rw [parseRecord_line hline]
    split_ifs
    · exact Nat.zero_le _
    · have hle := parseBody_le (atoi line).toNat (line.length + 1) rest
      rw [List.length_append, List.length_cons]
      omega
  · rw [parseRecord_of_notMem hnewline]
    exact Nat.zero_le _

theorem announces_line {line rest : Bytes} {n : ℕ} (hline : newline ∉ line)
    (h : Announces (line ++ newline :: rest) n) : n = line.length + 1 + (atoi line).toNat := by
  have hn := h.2
  rwa [takeWhile_line hline] at hn

theorem newline_mem_of_announces {q : Bytes} {n : ℕ} (h : Announces q n) : newline ∈ q := by
  by_contra hnone
  exact h.1 (Or.inl (by rw [takeWhile_of_notMem hnone]))

/-! ## Runs -/

namespace Buffer

variable {b : Buffer} {q : Bytes}

/-- What the buffer does for its next user: the copy of `nice` does not overlap, appending needs only memory,
and records are read, or waited for. -/
structure Serves (b : Buffer) (q : Bytes) : Prop where
  apart : b.total / 2 < b.offset → b.size ≤ b.offset
  append : ∀ (p : Bytes) (answers : ℕ → MemAnswer), (∀ i, answers i ≠ none) → b.slot + p.length ≤ 2 ^ 30 →
    ∃ b', b.append p answers = some ((p.length : ℤ), b') ∧ b'.Holds (q ++ p)
  appendRecord : ∀ (s : Bytes) (answers : ℕ → MemAnswer), (∀ i, answers i ≠ none) →
    b.slot + s.length + 17 ≤ 2 ^ 30 →
    ∃ b', b.appendRecord s answers = some (((Link.appendRecord s).length : ℤ), b') ∧
      b'.Holds (q ++ Link.appendRecord s)
  readRecord : ∀ s rest, q = Link.appendRecord s ++ rest →
    ∃ b', b.readRecord = some (1, some s, b') ∧ b'.Holds rest
  incomplete : ∀ s, s.length + 17 < 2 ^ 31 → q <+: Link.appendRecord s → q ≠ Link.appendRecord s →
    b.readRecord = some (0, none, b)

namespace Holds

/-- A record that is there, and one that is not complete, are regular to read. -/
theorem regular_of_record (h : b.Holds q) {s rest : Bytes} (hq : q = Link.appendRecord s ++ rest) :
    b.Regular .readRecord := by
  intro n hn
  rw [h.data_eq] at hn ⊢
  have htext : q = decimal s.length ++ newline :: (s ++ newline :: rest) := by
    rw [hq]
    simp [Link.appendRecord]
  have hsize := h.length_eq
  have htotal := h.total_lt
  have hinside := h.inside
  rw [hq, List.length_append, length_appendRecord] at hsize
  rw [htext] at hn
  have hn := announces_line (newline_notMem_decimal _) hn
  rw [atoi_decimal (by omega), Int.toNat_natCast] at hn
  refine ⟨by omega, ?_⟩
  -- the record ends in a newline
  have hget : q[n]? = some newline := by
    rw [htext, hn, ← List.head?_drop, Nat.add_assoc, ← List.drop_drop, List.drop_left, Nat.add_comm 1,
      List.drop_succ_cons, List.drop_left]
    rfl
  intro hreturn
  rw [hget] at hreturn
  exact absurd (Option.some.inj hreturn) (by decide)

theorem regular_of_incomplete (h : b.Holds q) {s : Bytes} (hs : s.length + 17 < 2 ^ 31)
    (hq : q <+: Link.appendRecord s) (hne : q ≠ Link.appendRecord s) : b.Regular .readRecord := by
  intro n hn
  rw [h.data_eq] at hn
  have hdigits : (decimal s.length).length ≤ 9 + 1 := length_decimal_le (by omega)
  rcases prefix_appendRecord hq hne with ⟨hnone, -, -⟩ | ⟨t, rfl, -⟩
  · exact absurd (newline_mem_of_announces hn) hnone
  · have hn := announces_line (newline_notMem_decimal _) hn
    rw [atoi_decimal (by omega), Int.toNat_natCast] at hn
    exact ⟨by omega, fun _ => by omega⟩

theorem serves (h : b.Holds q) : b.Serves q where
  apart := h.apart
  append := by
    intro p answers hmemory hfits
    have hp : p.length < 2 ^ 31 := by omega
    obtain ⟨ret, b', happend, ⟨rfl, hb'⟩ | ⟨-, -, hwhy⟩⟩ := h.append hp answers
    · exact ⟨b', happend, hb'⟩
    · rcases hwhy with ⟨j, hj⟩ | hmuch
      · exact absurd hj (hmemory j)
      · omega
  appendRecord := by
    intro s answers hmemory hfits
    have hs : s.length + 17 < 2 ^ 31 := by omega
    obtain ⟨ret, b', happend, ⟨rfl, hb'⟩ | ⟨-, -, hwhy⟩⟩ := h.appendRecord hs answers
    · exact ⟨b', happend, hb'⟩
    · rcases hwhy with ⟨j, hj⟩ | hmuch
      · exact absurd hj (hmemory j)
      · omega
  readRecord := by
    intro s rest hq
    have hread := h.readRecord_eq (h.regular_of_record hq)
    have hsize := h.length_eq
    have htotal := h.total_lt
    have hinside := h.inside
    subst hq
    rw [List.length_append, length_appendRecord] at hsize
    rw [parseRecord_appendRecord (by omega)] at hread
    have hdecr := h.decr (show (Link.appendRecord s).length ≤ b.size by rw [length_appendRecord]; omega)
    rw [List.drop_left] at hdecr
    exact ⟨_, hread, hdecr⟩
  incomplete := by
    intro s hs hq hne
    rw [h.readRecord_eq (h.regular_of_incomplete hs hq hne), parseRecord_incomplete (by omega) hq hne]
    rfl

/-- **One call** does to the bytes that wait what it should. -/
theorem step (h : b.Holds q) {c : BufferCall} (hregular : b.Regular c) :
    ∃ ret s b' q', b.step c = some (ret, s, b') ∧ b'.Holds q' ∧ QueueStep q c ret s q' := by
  cases c with
  | append p answers =>
      obtain ⟨ret, b', happend, ⟨rfl, hb'⟩ | ⟨rfl, hb', -⟩⟩ := h.append hregular answers
      · exact ⟨_, none, b', _, by rw [Buffer.step, happend]; rfl, hb', .append q p answers⟩
      · exact ⟨_, none, b', _, by rw [Buffer.step, happend]; rfl, hb', .appendRefused q p answers⟩
  | appendRecord s answers =>
      obtain ⟨ret, b', happend, ⟨rfl, hb'⟩ | ⟨rfl, hb', -⟩⟩ := h.appendRecord hregular answers
      · exact ⟨_, none, b', _, by rw [Buffer.step, happend]; rfl, hb', .appendRecord q s answers⟩
      · exact ⟨_, none, b', _, by rw [Buffer.step, happend]; rfl, hb', .appendRecordRefused q s answers⟩
  | fill p =>
      obtain ⟨b', hfill, hb'⟩ := h.fill hregular
      exact ⟨0, none, b', _, by rw [Buffer.step, hfill]; rfl, hb', .fill q p⟩
  | decr num =>
      exact ⟨0, none, _, _, rfl, h.decr hregular, .decr q (h.length_eq.symm ▸ hregular)⟩
  | readRecord =>
      exact ⟨_, _, _, _, h.readRecord_eq hregular, h.decr (h.length_eq ▸ parseRecord_le q),
        queueStep_parseRecord q⟩
  | nice =>
      obtain ⟨b', hnice, hb'⟩ := h.nice
      exact ⟨0, none, b', q, by rw [Buffer.step, hnice]; rfl, hb', .nice q⟩
  | grow answer =>
      refine ⟨_, none, _, q, rfl, ?_, .grow q answer _⟩
      rcases h.grow answer with ⟨-, hsame, -⟩ | ⟨-, hgrown, -, -⟩
      · rw [hsame]
        exact h
      · exact hgrown
  | shrink total answer =>
      exact ⟨0, none, _, q, rfl, h.shrink hregular, .shrink q total answer⟩

/-- **Any calls.** -/
theorem run (cs : List BufferCall) : ∀ {b : Buffer} {q : Bytes}, b.Holds q → b.RegularRun cs →
    ∃ rs b' q', b.run cs = some (rs, b') ∧ b'.Holds q' ∧ QueueRun q cs rs q' := by
  induction cs with
  | nil => exact fun {b q} h _ => ⟨[], b, q, rfl, h, .nil q⟩
  | cons c cs ih =>
      intro b q h hregular
      obtain ⟨ret, s, b₁, q₁, hstep, h₁, hqueue⟩ := h.step hregular.1
      obtain ⟨rs, b', q', hrun, h', hqueues⟩ := ih h₁ (hregular.2 ret s b₁ hstep)
      exact ⟨(ret, s) :: rs, b', q', by simp [Buffer.run, hstep, hrun], h', .cons hqueue hqueues⟩

end Holds

end Buffer

/-- **The buffer is a queue of bytes** after any regular calls, whatever the allocator answers: its data is
what was appended and not yet consumed, and lies inside the allocation; `nice` does not copy a range over
itself; and records come back. -/
theorem buffer_queue {total : ℕ} (htotal : total < 2 ^ 31) (mem : ℕ → Byte) {cs : List BufferCall}
    (hregular : (Buffer.new total (some mem)).RegularRun cs) :
    ∃ rs b q, (Buffer.new total (some mem)).run cs = some (rs, b) ∧ QueueRun [] cs rs q ∧ b.Holds q ∧
      b.Serves q := by
  obtain ⟨rs, b, q, hrun, hholds, hqueue⟩ := (Buffer.holds_new htotal mem).run cs hregular
  exact ⟨rs, b, q, hrun, hqueue, hholds, hholds.serves⟩

/-- A record is appended to a buffer of 8 bytes, which grows, and is read again. -/
theorem buffer_queue_oneRecord :
    let cs : List BufferCall := [.appendRecord (ascii "ab") fun _ => some fun _ => 0, .readRecord]
    (Buffer.new 8 (some fun _ => 0)).RegularRun cs ∧
      ∃ rs b q, (Buffer.new 8 (some fun _ => 0)).run cs = some (rs, b) ∧ QueueRun [] cs rs q ∧ b.Holds q ∧
        b.Serves q := by
  have hregular : (Buffer.new 8 (some fun _ => 0)).RegularRun
      [.appendRecord (ascii "ab") fun _ => some fun _ => 0, .readRecord] := by
    refine ⟨show (ascii "ab").length + 17 < 2 ^ 31 by decide, fun ret s b' hstep => ⟨?_, fun _ _ _ _ => trivial⟩⟩
    have hholds := Buffer.holds_new (show 8 < 2 ^ 31 by decide) fun _ => 0
    obtain ⟨b'', happend, hb''⟩ := hholds.serves.appendRecord (ascii "ab") (fun _ => some fun _ => 0)
      (by simp) (by decide)
    rw [Buffer.step, happend] at hstep
    obtain rfl : b'' = b' := (Prod.mk.inj (Prod.mk.inj (Option.some.inj hstep)).2).2
    exact hb''.regular_of_record (List.append_nil (Link.appendRecord (ascii "ab"))).symm
  exact ⟨hregular, buffer_queue (by decide) (fun _ => 0) hregular⟩

/-- **An announced length that makes the sum overflow**: part of a record waits, and a byte behind the
allocation is read. -/
theorem readRecord_overflow :
    let text := ascii "2147483647\n"
    (∀ s : Bytes, s.length = 2147483647 → text <+: Link.appendRecord s) ∧
      ((Buffer.new 16 (some fun _ => 0)).append text fun _ => none).isSome ∧
      (Buffer.new 16 (some fun _ => 0)).run [.append text fun _ => none, .readRecord] = none := by
  refine ⟨?_, by decide +kernel, by decide +kernel⟩
  intro s hs
  have hdigits : decimal 2147483647 = ascii "2147483647" := by decide +kernel
  rw [Link.appendRecord, hs, hdigits]
  exact ⟨s ++ [newline], rfl⟩

end Ssdb
