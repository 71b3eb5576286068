/-
# Queues

`ssdb-master/src/ssdb/t_queue.h` and `t_queue.cpp`.  A queue is a size record, a front and a back
pointer and the items, each under a key of its own; items lie under sequence numbers, and the
pointers are kept as items with the numbers 2 and 3.

`Db.IsQueue` says that the records of a queue are those of a list.  The operations keep it:
`qpush_spec`, `qpop_spec` and `qset_spec` say what each does to the list, and `apply_other` that it
does nothing to the other queues.

Sizes are `int64_t` counters, which the model keeps as integers without bounds.
-/
import DoudizhuBackend.Ssdb.Binlog

namespace Ssdb

/-! ## Records -/

/-- `QFRONT_SEQ`. -/
def qfrontSeq : ℕ := 2
/-- `QBACK_SEQ`. -/
def qbackSeq : ℕ := 3
/-- `QITEM_MIN_SEQ`. -/
def qitemMinSeq : ℕ := 10000
/-- `QITEM_MAX_SEQ`. -/
def qitemMaxSeq : ℕ := 9223372036854775807
/-- `QITEM_SEQ_INIT`: the number of the first item of a new queue. -/
def qitemSeqInit : ℕ := qitemMaxSeq / 2

/-- `front_or_back_seq`. -/
inductive QueueEnd where
  | front | back
  deriving DecidableEq

/-- The number under which the pointer to the end is kept. -/
def QueueEnd.seq : QueueEnd → ℕ
  | .front => qfrontSeq
  | .back => qbackSeq

/-- The number behind an end, for a new item. -/
def QueueEnd.outward : QueueEnd → ℕ → ℕ
  | .front, seq => (seq + (2 ^ 64 - 1)) % 2 ^ 64
  | .back, seq => (seq + 1) % 2 ^ 64

/-- The number next to an end, inside. -/
def QueueEnd.inward : QueueEnd → ℕ → ℕ
  | .front, seq => (seq + 1) % 2 ^ 64
  | .back, seq => (seq + (2 ^ 64 - 1)) % 2 ^ 64

/-- The log command of a push. -/
def QueueEnd.pushCommand : QueueEnd → BinlogCommand
  | .front => .qpushFront
  | .back => .qpushBack

/-- The log command of a pop. -/
def QueueEnd.popCommand : QueueEnd → BinlogCommand
  | .front => .qpopFront
  | .back => .qpopBack

/-- What a lookup of a number returns: -1, 0, or 1 and the number. -/
inductive Lookup where
  | error
  | notFound
  | found (n : ℕ)
  deriving DecidableEq

/-- `qget_by_seq`. -/
def qgetBySeq (db : Db) (name : Bytes) (seq : ℕ) : Option Bytes :=
  (db.get (encodeQitemKey name seq)).map Value.image

/-- `qget_uint64`. -/
def qgetUint64 (db : Db) (name : Bytes) (seq : ℕ) : Lookup :=
  match db.get (encodeQitemKey name seq) with
  | none => .notFound
  | some v =>
      match v.int64 with
      | none => .error
      | some n => .found (n % 2 ^ 64).toNat

/-- `qsize`, `0` without a record. -/
def qsize (db : Db) (name : Bytes) : ℤ :=
  match db.get (encodeQsizeKey name) with
  | none => 0
  | some v => v.int64.getD (-1)

/-- `incr_qsize`: the new size and what is put in the batch. -/
def incrQsize (db : Db) (name : Bytes) (incr : ℤ) : ℤ × List Write :=
  if qsize db name = -1 then (-1, [])
  else
    let size := qsize db name + incr
    if size ≤ 0 then
      (size, [.delete (encodeQsizeKey name), .delete (encodeQitemKey name qfrontSeq),
        .delete (encodeQitemKey name qbackSeq)])
    else (size, [.put (encodeQsizeKey name) (.int size)])

/-! ## Operations

Each returns its result and the calls of the transaction that it commits; without a commit there
are none. -/

/-- `qset_by_seq`. -/
def qsetBySeq (db : Db) (name : Bytes) (seq : ℕ) (item : Bytes) (logType : BinlogType) :
    ℤ × List Write :=
  if qsize db name = -1 then (-1, [])
  else
    let set (minSeq : ℕ) : ℤ × List Write :=
      if seq < minSeq ∨ ((minSeq + qsize db name) % 2 ^ 64).toNat < seq then (0, [])
      else
        (1, [.put (encodeQitemKey name seq) (.bytes item),
          .addLog logType .qset (encodeQitemKey name seq)])
    match qgetUint64 db name qfrontSeq with
    | .error => (-1, [])
    | .notFound => set 0
    | .found minSeq => set minSeq

/-- `qset`. -/
def qset (db : Db) (name : Bytes) (index : ℤ) (item : Bytes) (logType : BinlogType) :
    ℤ × List Write :=
  if qsize db name = -1 then (-1, [])
  else if qsize db name ≤ index ∨ index < -qsize db name then (0, [])
  else
    let pointer := qgetUint64 db name (if 0 ≤ index then qfrontSeq else qbackSeq)
    match pointer with
    | .error => (-1, [])
    | .notFound => (0, [])
    | .found seq =>
        let seq := ((seq + if 0 ≤ index then index else index + 1) % 2 ^ 64).toNat
        (1, [.put (encodeQitemKey name seq) (.bytes item),
          .addLog logType .qset (encodeQitemKey name seq)])

/-- The number of a pushed item, and what is put in the batch for the pointers. -/
def pushSeq (name : Bytes) (e : QueueEnd) : Lookup → ℕ × List Write
  | .found seq => (e.outward seq, [.put (encodeQitemKey name e.seq) (.int (e.outward seq))])
  | _ => (qitemSeqInit, [.put (encodeQitemKey name qfrontSeq) (.int qitemSeqInit),
      .put (encodeQitemKey name qbackSeq) (.int qitemSeqInit)])

/-- `_qpush`: -1, or the new size. -/
def qpush (db : Db) (name item : Bytes) (e : QueueEnd) (logType : BinlogType) : ℤ × List Write :=
  if qgetUint64 db name e.seq = .error then (-1, [])
  else
    let (seq, pointers) := pushSeq name e (qgetUint64 db name e.seq)
    if seq ≤ qitemMinSeq ∨ qitemMaxSeq ≤ seq then (-1, [])
    else
      let (size, ws) := incrQsize db name 1
      if size = -1 then (-1, [])
      else
        (size, pointers ++ .put (encodeQitemKey name seq) (.bytes item) ::
          .addLog logType e.pushCommand (encodeQitemKey name seq) :: ws)

/-- `qpush_front`. -/
def qpushFront (db : Db) (name item : Bytes) (logType : BinlogType) : ℤ × List Write :=
  qpush db name item .front logType

/-- `qpush_back`. -/
def qpushBack (db : Db) (name item : Bytes) (logType : BinlogType) : ℤ × List Write :=
  qpush db name item .back logType

/-- `_qpop`: -1, 0, or 1 and the item. -/
def qpop (db : Db) (name : Bytes) (e : QueueEnd) (logType : BinlogType) :
    ℤ × Option Bytes × List Write :=
  match qgetUint64 db name e.seq with
  | .error => (-1, none, [])
  | .notFound => (0, none, [])
  | .found seq =>
      match qgetBySeq db name seq with
      | none => (0, none, [])
      | some item =>
          let (size, ws) := incrQsize db name (-1)
          if size = -1 then (-1, none, [])
          else
            let pointer : List Write :=
              if 0 < size then [.put (encodeQitemKey name e.seq) (.int (e.inward seq))] else []
            (1, some item, .delete (encodeQitemKey name seq) :: .addLog logType e.popCommand name ::
              (ws ++ pointer))

/-- `qpop_front`. -/
def qpopFront (db : Db) (name : Bytes) (logType : BinlogType) : ℤ × Option Bytes × List Write :=
  qpop db name .front logType

/-- `qpop_back`. -/
def qpopBack (db : Db) (name : Bytes) (logType : BinlogType) : ℤ × Option Bytes × List Write :=
  qpop db name .back logType

/-! ## The records of a list -/

/-- **The records of the queue `name` are those of a list** whose first item has the number `front`:
size, pointers and items, and no records at all for the empty list. -/
structure Db.IsQueue (db : Db) (name : Bytes) (front : ℕ) (items : List Bytes) : Prop where
  size : db.get (encodeQsizeKey name) = if items = [] then none else some (.int items.length)
  frontPointer : db.get (encodeQitemKey name qfrontSeq) = if items = [] then none else some (.int front)
  backPointer : db.get (encodeQitemKey name qbackSeq) =
    if items = [] then none else some (.int (front + items.length - 1 : ℕ))
  item : ∀ seq < 2 ^ 64, seq ≠ qfrontSeq → seq ≠ qbackSeq →
    db.get (encodeQitemKey name seq) =
      if front ≤ seq then (items[seq - front]?).map Value.bytes else none
  lower : items ≠ [] → qitemMinSeq < front
  upper : items ≠ [] → front + items.length ≤ qitemMaxSeq

/-- The abstraction: the items from the front pointer to the back pointer. -/
def queueItems (db : Db) (name : Bytes) : List Bytes :=
  match qgetUint64 db name qfrontSeq, qgetUint64 db name qbackSeq with
  | .found front, .found back => (List.range' front (back + 1 - front)).filterMap (qgetBySeq db name)
  | _, _ => []

/-- The items of consecutive numbers. -/
theorem filterMap_range' {α : Type} {f : ℕ → Option α} (xs : List α) : ∀ {n : ℕ},
    (∀ i (h : i < xs.length), f (n + i) = some xs[i]) →
      (List.range' n xs.length).filterMap f = xs := by
  induction xs with
  | nil => intro n _; rfl
  | cons x xs ih =>
      intro n h
      have hx : f n = some x := h 0 (Nat.zero_lt_succ _)
      rw [List.length_cons, List.range'_succ, List.filterMap_cons_some hx, ih]
      intro i hi
      have := h (i + 1) (Nat.succ_lt_succ hi)
      rwa [List.getElem_cons_succ, Nat.add_comm i 1, ← Nat.add_assoc] at this

/-- Two items do not share a record. -/
theorem qitemKey_eq_iff {name name' : Bytes} {m n : ℕ} (hm : m < 2 ^ 64) (hn : n < 2 ^ 64) :
    encodeQitemKey name m = encodeQitemKey name' n ↔ name = name' ∧ m = n := by
  constructor
  · exact encodeQitemKey_inj hm hn
  · rintro ⟨rfl, rfl⟩
    rfl

/-- Items and sizes have keys apart. -/
theorem qsizeKey_ne_qitemKey (name name' : Bytes) (n : ℕ) :
    encodeQsizeKey name ≠ encodeQitemKey name' n := by
  intro h
  have := (List.cons.inj h).1
  revert this
  decide

/-- Two sizes do not share a record. -/
theorem qsizeKey_inj {name name' : Bytes} (h : encodeQsizeKey name = encodeQsizeKey name') :
    name = name' :=
  (List.cons.inj h).2

namespace Db.IsQueue

variable {db db' : Db} {name : Bytes} {front : ℕ} {items : List Bytes}

/-- A queue depends on its own records. -/
theorem congr (h : db.IsQueue name front items)
    (hsize : db'.get (encodeQsizeKey name) = db.get (encodeQsizeKey name))
    (hitem : ∀ seq < 2 ^ 64, db'.get (encodeQitemKey name seq) = db.get (encodeQitemKey name seq)) :
    db'.IsQueue name front items where
  size := hsize.trans h.size
  frontPointer := (hitem _ (by decide)).trans h.frontPointer
  backPointer := (hitem _ (by decide)).trans h.backPointer
  item := fun seq hseq hf hb => (hitem seq hseq).trans (h.item seq hseq hf hb)
  lower := h.lower
  upper := h.upper

/-- `qsize` is the number of items. -/
theorem qsize_eq (h : db.IsQueue name front items) : qsize db name = items.length := by
  rw [qsize, h.size]
  split_ifs with hnil
  · rw [hnil]
    rfl
  · rfl

/-- Where the first item of a queue may stand. -/
theorem front_lt (h : db.IsQueue name front items) (hne : items ≠ []) :
    qitemMinSeq < front ∧ front + items.length < 2 ^ 63 ∧ 0 < items.length := by
  have hupper := h.upper hne
  refine ⟨h.lower hne, ?_, List.length_pos_of_ne_nil hne⟩
  simp only [qitemMaxSeq] at hupper
  omega

/-- What the pointers read as. -/
theorem qgetUint64_eq (h : db.IsQueue name front items) (e : QueueEnd) :
    qgetUint64 db name e.seq =
      if items = [] then .notFound
      else .found (match e with
        | .front => front
        | .back => front + items.length - 1) := by
  have hpointer : db.get (encodeQitemKey name e.seq) = if items = [] then none
      else some (.int (match e with
        | .front => front
        | .back => front + items.length - 1 : ℕ)) := by
    cases e with
    | front => exact h.frontPointer
    | back => exact h.backPointer
  rw [qgetUint64, hpointer]
  split_ifs with hnil
  · rfl
  · have := h.front_lt hnil
    cases e with
    | front =>
        simp only [Value.int64]
        congr 1
        omega
    | back =>
        simp only [Value.int64]
        congr 1
        omega

/-- The item with a number. -/
theorem get_item (h : db.IsQueue name front items) {i : ℕ} (hi : i < items.length) :
    db.get (encodeQitemKey name (front + i)) = some (.bytes items[i]) := by
  have hbounds := h.front_lt (List.ne_nil_of_length_pos (by omega))
  simp only [qitemMinSeq] at hbounds
  rw [h.item (front + i) (by omega) (by simp only [qfrontSeq]; omega)
    (by simp only [qbackSeq]; omega), if_pos (by omega), Nat.add_sub_cancel_left,
    List.getElem?_eq_getElem hi]
  rfl

/-- The abstraction of the records of a list is the list. -/
theorem queueItems_eq (h : db.IsQueue name front items) : queueItems db name = items := by
  have hfront := h.qgetUint64_eq .front
  have hback := h.qgetUint64_eq .back
  simp only [QueueEnd.seq] at hfront hback
  rw [queueItems, hfront, hback]
  split_ifs with hnil
  · exact hnil.symm
  · have hbounds := h.front_lt hnil
    have hlength : front + items.length - 1 + 1 - front = items.length := by omega
    simp only [hlength]
    apply filterMap_range'
    intro i hi
    rw [qgetBySeq, h.get_item hi]
    rfl

end Db.IsQueue

/-- There is nothing in an empty database. -/
theorem Db.isQueue_empty (name : Bytes) (front : ℕ) : Db.IsQueue OrderedMap.empty name front [] where
  size := rfl
  frontPointer := rfl
  backPointer := rfl
  item := by
    intro seq _ _ _
    split <;> rfl
  lower := fun h => absurd rfl h
  upper := fun h => absurd rfl h

/-! ## What a batch does to the records of a queue -/

section Records

variable (db : Db) (name : Bytes) (v : Value) {m n : ℕ}

/-- An item that is put is read back, and the others stay. -/
theorem get_put_qitem (hm : m < 2 ^ 64) (hn : n < 2 ^ 64) :
    (db.put (encodeQitemKey name m) v).get (encodeQitemKey name n) =
      if n = m then some v else db.get (encodeQitemKey name n) := by
  simp [OrderedMap.get_put, qitemKey_eq_iff hn hm]

/-- An item that is deleted is gone, and the others stay. -/
theorem get_delete_qitem (hm : m < 2 ^ 64) (hn : n < 2 ^ 64) :
    (db.delete (encodeQitemKey name m)).get (encodeQitemKey name n) =
      if n = m then none else db.get (encodeQitemKey name n) := by
  simp [OrderedMap.get_delete, qitemKey_eq_iff hn hm]

/-- A write of a size does not touch the items. -/
@[simp]
theorem get_put_qsize_qitem (n : ℕ) :
    (db.put (encodeQsizeKey name) v).get (encodeQitemKey name n) = db.get (encodeQitemKey name n) :=
  OrderedMap.get_put_of_ne db v (qsizeKey_ne_qitemKey name name n).symm

@[simp]
theorem get_delete_qsize_qitem (n : ℕ) :
    (db.delete (encodeQsizeKey name)).get (encodeQitemKey name n) = db.get (encodeQitemKey name n) :=
  OrderedMap.get_delete_of_ne db (qsizeKey_ne_qitemKey name name n).symm

/-- A write of an item does not touch the sizes. -/
@[simp]
theorem get_put_qitem_qsize (m : ℕ) :
    (db.put (encodeQitemKey name m) v).get (encodeQsizeKey name) = db.get (encodeQsizeKey name) :=
  OrderedMap.get_put_of_ne db v (qsizeKey_ne_qitemKey name name m)

@[simp]
theorem get_delete_qitem_qsize (m : ℕ) :
    (db.delete (encodeQitemKey name m)).get (encodeQsizeKey name) = db.get (encodeQsizeKey name) :=
  OrderedMap.get_delete_of_ne db (qsizeKey_ne_qitemKey name name m)

end Records

/-! ## Pushing -/

/-- `cons` or `snoc`. -/
def QueueEnd.push (e : QueueEnd) (item : Bytes) (items : List Bytes) : List Bytes :=
  match e with
  | .front => item :: items
  | .back => items ++ [item]

/-- How many items can still be pushed at an end. -/
def room (db : Db) (name : Bytes) : QueueEnd → ℕ
  | .front =>
      match qgetUint64 db name qfrontSeq with
      | .found front => front - qitemMinSeq - 1
      | _ => qitemSeqInit - qitemMinSeq
  | .back =>
      match qgetUint64 db name qbackSeq with
      | .found back => qitemMaxSeq - back - 1
      | _ => qitemMaxSeq - qitemSeqInit

/-- The number of the first item after a push. -/
def frontAfterPush (front : ℕ) (items : List Bytes) : QueueEnd → ℕ
  | .front => if items = [] then qitemSeqInit else front - 1
  | .back => if items = [] then qitemSeqInit else front

namespace Db.IsQueue

variable {db : Db} {name : Bytes} {front : ℕ} {items : List Bytes}

/-- The size of a queue with one more item. -/
theorem incrQsize_one (h : db.IsQueue name front items) :
    incrQsize db name 1 =
      ((items.length : ℤ) + 1, [.put (encodeQsizeKey name) (.int (items.length + 1))]) := by
  rw [incrQsize, h.qsize_eq, if_neg (by omega)]
  simp only [if_neg (show ¬ (items.length : ℤ) + 1 ≤ 0 by omega)]

/-- The room in front of a queue. -/
theorem room_front (h : db.IsQueue name front items) :
    room db name .front =
      if items = [] then qitemSeqInit - qitemMinSeq else front - qitemMinSeq - 1 := by
  have hfront : qgetUint64 db name qfrontSeq = _ := h.qgetUint64_eq .front
  rw [room, hfront]
  by_cases hnil : items = []
  · rw [if_pos hnil, if_pos hnil]
  · rw [if_neg hnil, if_neg hnil]

/-- The room behind a queue. -/
theorem room_back (h : db.IsQueue name front items) :
    room db name .back =
      if items = [] then qitemMaxSeq - qitemSeqInit
      else qitemMaxSeq - (front + items.length - 1) - 1 := by
  have hback : qgetUint64 db name qbackSeq = _ := h.qgetUint64_eq .back
  rw [room, hback]
  by_cases hnil : items = []
  · rw [if_pos hnil, if_pos hnil]
  · rw [if_neg hnil, if_neg hnil]

/-- The first item of a queue. -/
theorem push_nil (h : db.IsQueue name front []) (item : Bytes) :
    Db.IsQueue ((((db.put (encodeQitemKey name qfrontSeq) (.int qitemSeqInit)).put
      (encodeQitemKey name qbackSeq) (.int qitemSeqInit)).put
        (encodeQitemKey name qitemSeqInit) (.bytes item)).put (encodeQsizeKey name) (.int 1))
      name qitemSeqInit [item] where
  size := by simp
  frontPointer := by
    simp (disch := decide) [get_put_qitem]
    decide
  backPointer := by
    simp (disch := decide) [get_put_qitem]
    decide
  item := by
    intro seq hseq hf hb
    have hold : db.get (encodeQitemKey name seq) = none := by
      rw [h.item seq hseq hf hb]
      simp
    rw [get_put_qsize_qitem, get_put_qitem _ _ _ (by decide) hseq,
      get_put_qitem _ _ _ (by decide) hseq, get_put_qitem _ _ _ (by decide) hseq, if_neg hb,
      if_neg hf, hold]
    rcases lt_trichotomy seq qitemSeqInit with hlt | rfl | hlt
    · rw [if_neg hlt.ne, if_neg (by omega)]
    · simp
    · rw [if_neg hlt.ne', if_pos hlt.le, List.getElem?_eq_none (by rw [List.length_singleton]; omega)]
      rfl
  lower := fun _ => by decide
  upper := fun _ => by
    rw [List.length_singleton]
    decide

/-- Another item at the front. -/
theorem push_front (h : db.IsQueue name front items) (hne : items ≠ [])
    (hroom : qitemMinSeq < front - 1) (item : Bytes) :
    Db.IsQueue (((db.put (encodeQitemKey name qfrontSeq) (.int (front - 1 : ℕ))).put
      (encodeQitemKey name (front - 1)) (.bytes item)).put (encodeQsizeKey name)
        (.int (items.length + 1))) name (front - 1) (item :: items) := by
  obtain ⟨hlow, hhigh, hpos⟩ := h.front_lt hne
  simp only [qitemMinSeq] at hlow hroom
  have hf : qfrontSeq ≠ front - 1 := by simp only [qfrontSeq]; omega
  have hb : qbackSeq ≠ front - 1 := by simp only [qbackSeq]; omega
  constructor
  case size => simp
  case frontPointer =>
    rw [get_put_qsize_qitem, get_put_qitem _ _ _ (by omega) (by decide), if_neg hf,
      get_put_qitem _ _ _ (by decide) (by decide), if_pos rfl, if_neg (List.cons_ne_nil _ _)]
  case backPointer =>
    rw [get_put_qsize_qitem, get_put_qitem _ _ _ (by omega) (by decide), if_neg hb,
      get_put_qitem _ _ _ (by decide) (by decide), if_neg (by decide), h.backPointer, if_neg hne,
      if_neg (List.cons_ne_nil _ _), List.length_cons]
    congr 3
    omega
  case item =>
    intro seq hseq hsf hsb
    rw [get_put_qsize_qitem, get_put_qitem _ _ _ (by omega) hseq,
      get_put_qitem _ _ _ (by decide) hseq, if_neg hsf, h.item seq hseq hsf hsb]
    rcases lt_trichotomy seq (front - 1) with hlt | rfl | hlt
    · rw [if_neg hlt.ne, if_neg (by omega), if_neg (by omega)]
    · simp
    · rw [if_neg hlt.ne', if_pos (by omega), if_pos (by omega),
        show seq - (front - 1) = seq - front + 1 by omega, List.getElem?_cons_succ]
  case lower => exact fun _ => hroom
  case upper =>
    intro _
    have := h.upper hne
    rw [List.length_cons]
    omega

/-- Another item at the back. -/
theorem push_back (h : db.IsQueue name front items) (hne : items ≠ [])
    (hroom : front + items.length < qitemMaxSeq) (item : Bytes) :
    Db.IsQueue (((db.put (encodeQitemKey name qbackSeq) (.int (front + items.length : ℕ))).put
      (encodeQitemKey name (front + items.length)) (.bytes item)).put (encodeQsizeKey name)
        (.int (items.length + 1))) name front (items ++ [item]) := by
  obtain ⟨hlow, hhigh, hpos⟩ := h.front_lt hne
  have hlow' := hlow
  simp only [qitemMinSeq] at hlow'
  have hf : qfrontSeq ≠ front + items.length := by simp only [qfrontSeq]; omega
  have hb : qbackSeq ≠ front + items.length := by simp only [qbackSeq]; omega
  have hnil : items ++ [item] ≠ [] := by simp
  constructor
  case size => simp
  case frontPointer =>
    rw [get_put_qsize_qitem, get_put_qitem _ _ _ (by omega) (by decide), if_neg hf,
      get_put_qitem _ _ _ (by decide) (by decide), if_neg (by decide), h.frontPointer, if_neg hne,
      if_neg hnil]
  case backPointer =>
    rw [get_put_qsize_qitem, get_put_qitem _ _ _ (by omega) (by decide), if_neg hb,
      get_put_qitem _ _ _ (by decide) (by decide), if_pos rfl, if_neg hnil, List.length_append,
      List.length_singleton]
    rfl
  case item =>
    intro seq hseq hsf hsb
    rw [get_put_qsize_qitem, get_put_qitem _ _ _ (by omega) hseq,
      get_put_qitem _ _ _ (by decide) hseq, if_neg hsb, h.item seq hseq hsf hsb]
    rcases lt_trichotomy seq (front + items.length) with hlt | rfl | hlt
    · rw [if_neg hlt.ne]
      split
      · rw [List.getElem?_append_left (by omega)]
      · rfl
    · simp
    · rw [if_neg hlt.ne', if_pos (by omega), if_pos (by omega), List.getElem?_eq_none (by omega),
        List.getElem?_eq_none (by simp; omega)]
  case lower => exact fun _ => hlow
  case upper =>
    intro _
    rw [List.length_append, List.length_singleton]
    omega

/-- The number that a push takes, with the pointers it writes. -/
theorem pushSeq_eq (h : db.IsQueue name front items) (hne : items ≠ []) (e : QueueEnd) :
    pushSeq name e (qgetUint64 db name e.seq) =
      match e with
      | .front => (front - 1, [.put (encodeQitemKey name qfrontSeq) (.int (front - 1 : ℕ))])
      | .back => (front + items.length,
          [.put (encodeQitemKey name qbackSeq) (.int (front + items.length : ℕ))]) := by
  obtain ⟨hlow, hhigh, hpos⟩ := h.front_lt hne
  rw [h.qgetUint64_eq, if_neg hne]
  cases e with
  | front =>
      have hseq : QueueEnd.front.outward front = front - 1 := by
        simp only [qitemMinSeq, QueueEnd.outward] at *
        omega
      simp only [pushSeq, hseq, QueueEnd.seq]
  | back =>
      have hseq : QueueEnd.back.outward (front + items.length - 1) = front + items.length := by
        simp only [QueueEnd.outward]
        omega
      simp only [pushSeq, hseq, QueueEnd.seq]

/-- The pointers of a queue can be read. -/
theorem qgetUint64_ne_error (h : db.IsQueue name front items) (e : QueueEnd) :
    qgetUint64 db name e.seq ≠ .error := by
  rw [h.qgetUint64_eq]
  split_ifs <;> exact fun h => by cases h

/-- A push that would leave the range of numbers fails and changes nothing. -/
theorem qpush_full (h : db.IsQueue name front items) {e : QueueEnd} (hroom : room db name e = 0)
    (item : Bytes) (logType : BinlogType) : qpush db name item e logType = (-1, []) := by
  have hne : items ≠ [] := by
    rintro rfl
    cases e with
    | front =>
        rw [h.room_front, if_pos rfl] at hroom
        simp only [qitemSeqInit, qitemMaxSeq, qitemMinSeq] at hroom
        omega
    | back =>
        rw [h.room_back, if_pos rfl] at hroom
        simp only [qitemSeqInit, qitemMaxSeq] at hroom
        omega
  have hbounds := h.front_lt hne
  simp only [qpush, if_neg (h.qgetUint64_ne_error e), h.pushSeq_eq hne]
  cases e with
  | front =>
      rw [h.room_front, if_neg hne] at hroom
      dsimp only
      rw [if_pos (Or.inl (by omega))]
  | back =>
      rw [h.room_back, if_neg hne] at hroom
      dsimp only
      rw [if_pos (Or.inr (by omega))]

/-- What a push in the range of numbers commits. -/
theorem qpush_eq (h : db.IsQueue name front items) {e : QueueEnd} {seq : ℕ} {pointers : List Write}
    (hseq : pushSeq name e (qgetUint64 db name e.seq) = (seq, pointers))
    (hlow : qitemMinSeq < seq) (hhigh : seq < qitemMaxSeq) (item : Bytes) (logType : BinlogType) :
    qpush db name item e logType =
      ((items.length : ℤ) + 1, pointers ++ .put (encodeQitemKey name seq) (.bytes item) ::
        .addLog logType e.pushCommand (encodeQitemKey name seq) ::
        [.put (encodeQsizeKey name) (.int (items.length + 1))]) := by
  have hrange : ¬ (seq ≤ qitemMinSeq ∨ qitemMaxSeq ≤ seq) := by omega
  have hsize : ¬ (items.length : ℤ) + 1 = -1 := by omega
  simp only [qpush, if_neg (h.qgetUint64_ne_error e), hseq, if_neg hrange, h.incrQsize_one,
    if_neg hsize]

/-- **A push is `cons` or `snoc`** while there is room. -/
theorem qpush_spec (h : db.IsQueue name front items) {e : QueueEnd} (hroom : 0 < room db name e)
    (item : Bytes) (logType : BinlogType) :
    (qpush db name item e logType).1 = items.length + 1 ∧
      Db.IsQueue (db.apply (qpush db name item e logType).2) name (frontAfterPush front items e)
        (e.push item items) := by
  rcases eq_or_ne items [] with rfl | hne
  · have hseq : pushSeq name e (qgetUint64 db name e.seq) =
        (qitemSeqInit, [.put (encodeQitemKey name qfrontSeq) (.int qitemSeqInit),
          .put (encodeQitemKey name qbackSeq) (.int qitemSeqInit)]) := by
      rw [h.qgetUint64_eq, if_pos rfl]
      rfl
    rw [h.qpush_eq hseq (by decide) (by decide)]
    refine ⟨rfl, ?_⟩
    simp only [List.length_nil, Nat.cast_zero, zero_add, List.cons_append, List.nil_append,
      Db.apply_put, Db.apply_addLog, Db.apply_nil]
    cases e with
    | front =>
        rw [frontAfterPush, if_pos rfl, QueueEnd.push]
        exact h.push_nil item
    | back =>
        rw [frontAfterPush, if_pos rfl, QueueEnd.push, List.nil_append]
        exact h.push_nil item
  · have hbounds := h.front_lt hne
    have hseq := h.pushSeq_eq hne e
    cases e with
    | front =>
        rw [h.room_front, if_neg hne] at hroom
        rw [frontAfterPush, if_neg hne]
        have hhigh : front - 1 < qitemMaxSeq := by
          simp only [qitemMaxSeq]
          omega
        rw [h.qpush_eq hseq (by omega) hhigh]
        exact ⟨rfl, h.push_front hne (by omega) item⟩
    | back =>
        rw [h.room_back, if_neg hne] at hroom
        rw [frontAfterPush, if_neg hne]
        rw [h.qpush_eq hseq (by omega) (by omega)]
        exact ⟨rfl, h.push_back hne (by omega) item⟩

/-- A push takes up one number. -/
theorem room_qpush (h : db.IsQueue name front items) {e : QueueEnd} (hroom : 0 < room db name e)
    (item : Bytes) (logType : BinlogType) :
    room (db.apply (qpush db name item e logType).2) name e = room db name e - 1 := by
  have hnew := (h.qpush_spec hroom item logType).2
  cases e with
  | front =>
      have hne : QueueEnd.front.push item items ≠ [] := List.cons_ne_nil _ _
      rw [hnew.room_front, h.room_front, if_neg hne, frontAfterPush]
      split_ifs <;> omega
  | back =>
      have hne : QueueEnd.back.push item items ≠ [] := by simp [QueueEnd.push]
      have hlength : (QueueEnd.back.push item items).length = items.length + 1 := by
        simp [QueueEnd.push]
      rw [hnew.room_back, h.room_back, if_neg hne, frontAfterPush, hlength]
      split_ifs with hnil
      · rw [hnil, List.length_nil]
        omega
      · have := (h.front_lt hnil).2.2
        omega

end Db.IsQueue

/-! ## Removing and replacing -/

/-- The item at the end of a list. -/
def QueueEnd.peek (e : QueueEnd) (items : List Bytes) : Option Bytes :=
  match e with
  | .front => items.head?
  | .back => items.getLast?

/-- The list without the item at the end. -/
def QueueEnd.rest (e : QueueEnd) (items : List Bytes) : List Bytes :=
  match e with
  | .front => items.tail
  | .back => items.dropLast

/-- A list with items has one at each end. -/
theorem QueueEnd.exists_peek (e : QueueEnd) {items : List Bytes} (hne : items ≠ []) :
    ∃ item, e.peek items = some item := by
  cases e with
  | front => exact ⟨_, List.head?_eq_some_head hne⟩
  | back => exact ⟨_, List.getLast?_eq_some_getLast hne⟩

/-- The number of the first item after a removal. -/
def frontAfterPop (front : ℕ) : QueueEnd → ℕ
  | .front => front + 1
  | .back => front

/-- The position in a list that an index means: a negative one counts from the back. -/
def indexPosition (items : List Bytes) (index : ℤ) : ℕ :=
  if 0 ≤ index then index.toNat else (items.length + index).toNat

/-- The number of the item at an end. -/
def endSeq (front : ℕ) (items : List Bytes) : QueueEnd → ℕ
  | .front => front
  | .back => front + items.length - 1

namespace Db.IsQueue

variable {db : Db} {name : Bytes} {front : ℕ} {items : List Bytes}

/-- The items of a queue without one of its ends. -/
theorem getElem?_rest (front : ℕ) (e : QueueEnd) (hne : items ≠ []) (seq : ℕ) :
    (if frontAfterPop front e ≤ seq then (e.rest items)[seq - frontAfterPop front e]? else none) =
      if seq = endSeq front items e then none
      else if front ≤ seq then items[seq - front]? else none := by
  have hpos := List.length_pos_of_ne_nil hne
  cases e with
  | front =>
      show (if front + 1 ≤ seq then items.tail[seq - (front + 1)]? else none) =
        if seq = front then none else if front ≤ seq then items[seq - front]? else none
      rcases lt_trichotomy seq front with hlt | heq | hlt
      · rw [if_neg (by omega), if_neg (by omega), if_neg (by omega)]
      · rw [if_neg (by omega), if_pos heq]
      · rw [if_pos (by omega), if_neg (by omega), if_pos (by omega), List.getElem?_tail,
          show seq - (front + 1) + 1 = seq - front by omega]
  | back =>
      show (if front ≤ seq then items.dropLast[seq - front]? else none) =
        if seq = front + items.length - 1 then none
        else if front ≤ seq then items[seq - front]? else none
      rcases lt_trichotomy seq (front + items.length - 1) with hlt | heq | hlt
      · rw [if_neg hlt.ne]
        split
        · rw [List.getElem?_dropLast, if_pos (by omega)]
        · rfl
      · rw [if_pos heq, if_pos (by omega), List.getElem?_dropLast, if_neg (by omega)]
      · rw [if_neg hlt.ne', if_pos (by omega), if_pos (by omega), List.getElem?_dropLast,
          if_neg (by omega), List.getElem?_eq_none (by omega)]

/-- What remains of the items after a removal. -/
theorem get_delete_end (h : db.IsQueue name front items) (e : QueueEnd) (hne : items ≠ []) {seq : ℕ}
    (hseq : seq < 2 ^ 64) (hf : seq ≠ qfrontSeq) (hb : seq ≠ qbackSeq) :
    (if seq = endSeq front items e then none else db.get (encodeQitemKey name seq)) =
      if frontAfterPop front e ≤ seq
      then ((e.rest items)[seq - frontAfterPop front e]?).map Value.bytes else none := by
  have hrest := congrArg (Option.map Value.bytes) (getElem?_rest front e hne seq)
  rw [apply_ite (Option.map Value.bytes), apply_ite (Option.map Value.bytes),
    apply_ite (Option.map Value.bytes), Option.map_none] at hrest
  rw [hrest, h.item seq hseq hf hb]

/-- Where the item at an end may stand. -/
theorem endSeq_bounds (h : db.IsQueue name front items) (e : QueueEnd) (hne : items ≠ []) :
    qitemMinSeq < endSeq front items e ∧ endSeq front items e < 2 ^ 63 ∧
      qfrontSeq ≠ endSeq front items e ∧ qbackSeq ≠ endSeq front items e := by
  have hbounds := h.front_lt hne
  simp only [qitemMinSeq, qfrontSeq, qbackSeq] at *
  cases e with
  | front => simp only [endSeq]; omega
  | back => simp only [endSeq]; omega

/-- The item at an end is stored under its number. -/
theorem get_endSeq (h : db.IsQueue name front items) (e : QueueEnd) (hne : items ≠ []) :
    db.get (encodeQitemKey name (endSeq front items e)) = (e.peek items).map Value.bytes := by
  have hpos := List.length_pos_of_ne_nil hne
  cases e with
  | front =>
      have := h.get_item hpos
      rw [Nat.add_zero] at this
      rw [endSeq, this, QueueEnd.peek, List.head?_eq_getElem?, List.getElem?_eq_getElem hpos]
      rfl
  | back =>
      have := h.get_item (i := items.length - 1) (by omega)
      rw [endSeq, Nat.add_sub_assoc hpos, this, QueueEnd.peek, List.getLast?_eq_getElem?,
        List.getElem?_eq_getElem (by omega)]
      rfl

/-- The last item is removed with all the records. -/
theorem pop_last (h : db.IsQueue name front items) (e : QueueEnd) (hone : items.length = 1) :
    Db.IsQueue ((((db.delete (encodeQitemKey name (endSeq front items e))).delete
      (encodeQsizeKey name)).delete (encodeQitemKey name qfrontSeq)).delete
        (encodeQitemKey name qbackSeq)) name (frontAfterPop front e) (e.rest items) := by
  have hne : items ≠ [] := List.ne_nil_of_length_pos (by omega)
  obtain ⟨hlow, hhigh, hf, hb⟩ := h.endSeq_bounds e hne
  have hnil : e.rest items = [] := by
    apply List.eq_nil_of_length_eq_zero
    cases e <;> simp [QueueEnd.rest, hone]
  constructor
  case size =>
    rw [if_pos hnil, get_delete_qitem_qsize, get_delete_qitem_qsize, OrderedMap.get_delete_self]
  case frontPointer =>
    rw [if_pos hnil, get_delete_qitem _ _ (by decide) (by decide), if_neg (by decide),
      OrderedMap.get_delete_self]
  case backPointer => rw [if_pos hnil, OrderedMap.get_delete_self]
  case item =>
    intro seq hseq hsf hsb
    rw [← h.get_delete_end e hne hseq hsf hsb, get_delete_qitem _ _ (by decide) hseq, if_neg hsb,
      get_delete_qitem _ _ (by decide) hseq, if_neg hsf, get_delete_qsize_qitem,
      get_delete_qitem _ _ (by omega) hseq]
  case lower => exact fun hnot => absurd hnil hnot
  case upper => exact fun hnot => absurd hnil hnot

/-- One of several items is removed. -/
theorem pop_more (h : db.IsQueue name front items) (e : QueueEnd) (hmore : 2 ≤ items.length) :
    Db.IsQueue (((db.delete (encodeQitemKey name (endSeq front items e))).put
      (encodeQsizeKey name) (.int (items.length - 1))).put (encodeQitemKey name e.seq)
        (.int (endSeq (frontAfterPop front e) (e.rest items) e : ℕ)))
      name (frontAfterPop front e) (e.rest items) := by
  have hne : items ≠ [] := List.ne_nil_of_length_pos (by omega)
  have hbounds := h.front_lt hne
  obtain ⟨hlow, hhigh, hf, hb⟩ := h.endSeq_bounds e hne
  have hlength : (e.rest items).length = items.length - 1 := by cases e <;> simp [QueueEnd.rest]
  have hnil : e.rest items ≠ [] := List.ne_nil_of_length_pos (by omega)
  have hseq : e.seq < 2 ^ 64 := by cases e <;> decide
  constructor
  case size =>
    rw [if_neg hnil, get_put_qitem_qsize, OrderedMap.get_put_self, hlength]
    congr 2
    omega
  case frontPointer =>
    rw [if_neg hnil, get_put_qitem _ _ _ hseq (by decide), get_put_qsize_qitem,
      get_delete_qitem _ _ (by omega) (by decide), if_neg hf, h.frontPointer, if_neg hne]
    cases e <;> rfl
  case backPointer =>
    rw [if_neg hnil, get_put_qitem _ _ _ hseq (by decide), get_put_qsize_qitem,
      get_delete_qitem _ _ (by omega) (by decide), if_neg hb, h.backPointer, if_neg hne, hlength]
    cases e with
    | front =>
        rw [if_neg (by decide), frontAfterPop]
        congr 3
        omega
    | back => rw [if_pos (show qbackSeq = QueueEnd.back.seq from rfl), endSeq, hlength]
  case item =>
    intro seq hseq' hsf hsb
    have hsep : seq ≠ e.seq := by cases e <;> assumption
    rw [← h.get_delete_end e hne hseq' hsf hsb, get_put_qitem _ _ _ hseq hseq', if_neg hsep,
      get_put_qsize_qitem, get_delete_qitem _ _ (by omega) hseq']
  case lower =>
    intro _
    cases e <;> simp only [frontAfterPop] <;> omega
  case upper =>
    intro _
    have hupper := h.upper hne
    cases e <;> simp only [frontAfterPop, hlength] <;> omega

/-- Nothing is removed from an empty queue. -/
theorem qpop_nil (h : db.IsQueue name front []) (e : QueueEnd) (logType : BinlogType) :
    qpop db name e logType = (0, none, []) := by
  rw [qpop, h.qgetUint64_eq, if_pos rfl]

/-- The pointer to an end. -/
theorem qgetUint64_of_ne_nil (h : db.IsQueue name front items) (e : QueueEnd) (hne : items ≠ []) :
    qgetUint64 db name e.seq = .found (endSeq front items e) := by
  rw [h.qgetUint64_eq, if_neg hne]
  cases e <;> rfl

/-- The sizes before and after a removal. -/
theorem incrQsize_neg_one (h : db.IsQueue name front items) :
    incrQsize db name (-1) =
      if items.length ≤ 1 then
        ((items.length : ℤ) - 1, [.delete (encodeQsizeKey name),
          .delete (encodeQitemKey name qfrontSeq), .delete (encodeQitemKey name qbackSeq)])
      else ((items.length : ℤ) - 1, [.put (encodeQsizeKey name) (.int (items.length - 1))]) := by
  rw [incrQsize, h.qsize_eq, if_neg (by omega)]
  by_cases hle : items.length ≤ 1
  · rw [if_pos hle]
    simp only [if_pos (show (items.length : ℤ) + -1 ≤ 0 by omega)]
    rfl
  · rw [if_neg hle]
    simp only [if_neg (show ¬ (items.length : ℤ) + -1 ≤ 0 by omega)]
    rfl

/-- The pointer that a removal writes. -/
theorem inward_endSeq (h : db.IsQueue name front items) (e : QueueEnd) (hmore : 2 ≤ items.length) :
    e.inward (endSeq front items e) = endSeq (frontAfterPop front e) (e.rest items) e := by
  have hbounds := h.front_lt (List.ne_nil_of_length_pos (by omega))
  cases e with
  | front =>
      simp only [QueueEnd.inward, endSeq, frontAfterPop]
      omega
  | back =>
      simp only [QueueEnd.inward, endSeq, frontAfterPop, QueueEnd.rest, List.length_dropLast]
      omega

/-- **A removal takes the item at its end.** -/
theorem qpop_spec (h : db.IsQueue name front items) (e : QueueEnd) (hne : items ≠ [])
    (logType : BinlogType) :
    (qpop db name e logType).1 = 1 ∧ (qpop db name e logType).2.1 = e.peek items ∧
      Db.IsQueue (db.apply (qpop db name e logType).2.2) name (frontAfterPop front e)
        (e.rest items) := by
  have hpos := List.length_pos_of_ne_nil hne
  obtain ⟨item, hitem⟩ := e.exists_peek hne
  have hget : qgetBySeq db name (endSeq front items e) = some item := by
    rw [qgetBySeq, h.get_endSeq e hne, hitem]
    rfl
  rw [qpop, h.qgetUint64_of_ne_nil e hne, hitem]
  simp only [hget, h.incrQsize_neg_one]
  rcases Nat.lt_or_ge items.length 2 with hone | hmore
  · simp only [if_pos (show items.length ≤ 1 by omega),
      if_neg (show ¬ (items.length : ℤ) - 1 = -1 by omega),
      if_neg (show ¬ 0 < (items.length : ℤ) - 1 by omega), List.append_nil]
    exact ⟨trivial, trivial, h.pop_last e (by omega)⟩
  · simp only [if_neg (show ¬ items.length ≤ 1 by omega),
      if_neg (show ¬ (items.length : ℤ) - 1 = -1 by omega),
      if_pos (show 0 < (items.length : ℤ) - 1 by omega), h.inward_endSeq e hmore]
    exact ⟨trivial, trivial, h.pop_more e hmore⟩

/-- `qset` out of range changes nothing. -/
theorem qset_out (h : db.IsQueue name front items) {index : ℤ}
    (hindex : ¬ (-(items.length : ℤ) ≤ index ∧ index < items.length)) (item : Bytes)
    (logType : BinlogType) : qset db name index item logType = (0, []) := by
  rw [qset, h.qsize_eq, if_neg (by omega), if_pos (by omega)]

/-- What `qset` in range commits. -/
theorem qset_eq (h : db.IsQueue name front items) {index : ℤ}
    (hindex : -(items.length : ℤ) ≤ index ∧ index < items.length) (item : Bytes)
    (logType : BinlogType) :
    qset db name index item logType =
      (1, [.put (encodeQitemKey name (front + indexPosition items index)) (.bytes item),
        .addLog logType .qset (encodeQitemKey name (front + indexPosition items index))]) := by
  have hne : items ≠ [] := by
    rintro rfl
    rw [List.length_nil] at hindex
    omega
  have hbounds := h.front_lt hne
  have hfront : qgetUint64 db name qfrontSeq = _ := h.qgetUint64_of_ne_nil .front hne
  have hback : qgetUint64 db name qbackSeq = _ := h.qgetUint64_of_ne_nil .back hne
  rw [qset, h.qsize_eq, if_neg (by omega), if_neg (by omega), indexPosition]
  by_cases hpos : 0 ≤ index
  · have hseq : (((endSeq front items .front : ℕ) + index) % 2 ^ 64).toNat =
        front + index.toNat := by
      simp only [endSeq]
      omega
    simp only [if_pos hpos, hfront, hseq]
  · have hseq : (((endSeq front items .back : ℕ) + (index + 1)) % 2 ^ 64).toNat =
        front + (items.length + index).toNat := by
      simp only [endSeq]
      omega
    simp only [if_neg hpos, hback, hseq]

/-- **`qset` replaces the item at an index.** -/
theorem qset_spec (h : db.IsQueue name front items) {index : ℤ}
    (hindex : -(items.length : ℤ) ≤ index ∧ index < items.length) (item : Bytes)
    (logType : BinlogType) :
    Db.IsQueue (db.apply (qset db name index item logType).2) name front
      (items.set (indexPosition items index) item) := by
  have hposition : indexPosition items index < items.length := by
    rw [indexPosition]
    split <;> omega
  have hne : items ≠ [] := List.ne_nil_of_length_pos (by omega)
  have hne' : items.set (indexPosition items index) item ≠ [] := by simpa using hne
  obtain ⟨hlow, hhigh, -⟩ := h.front_lt hne
  have hlow' := hlow
  simp only [qitemMinSeq] at hlow'
  have hf : qfrontSeq ≠ front + indexPosition items index := by simp only [qfrontSeq]; omega
  have hb : qbackSeq ≠ front + indexPosition items index := by simp only [qbackSeq]; omega
  rw [h.qset_eq hindex]
  simp only [Db.apply_put, Db.apply_addLog, Db.apply_nil]
  constructor
  case size => rw [get_put_qitem_qsize, h.size, List.length_set, if_neg hne, if_neg hne']
  case frontPointer =>
    rw [get_put_qitem _ _ _ (by omega) (by decide), if_neg hf, h.frontPointer, if_neg hne,
      if_neg hne']
  case backPointer =>
    rw [get_put_qitem _ _ _ (by omega) (by decide), if_neg hb, h.backPointer, if_neg hne,
      if_neg hne', List.length_set]
  case item =>
    intro seq hseq hsf hsb
    rw [get_put_qitem _ _ _ (by omega) hseq, h.item seq hseq hsf hsb]
    by_cases heq : seq = front + indexPosition items index
    · rw [if_pos heq, if_pos (by omega), heq, Nat.add_sub_cancel_left,
        List.getElem?_set_self hposition]
      rfl
    · rw [if_neg heq]
      split
      · rw [List.getElem?_set_ne (by omega)]
      · rfl
  case lower => exact fun _ => hlow
  case upper =>
    intro _
    rw [List.length_set]
    exact h.upper hne

end Db.IsQueue

/-! ## Other queues -/

/-- The keys of the records of a queue. -/
def IsQueueKey (name k : Bytes) : Prop := k = encodeQsizeKey name ∨ ∃ seq, k = encodeQitemKey name seq

/-- The name in the key of an item, for any name and number. -/
theorem name_of_qitemKey {name name' : Bytes} {m n : ℕ}
    (h : encodeQitemKey name m = encodeQitemKey name' n) : name = name' := by
  simp only [encodeQitemKey, List.cons.injEq, true_and] at h
  exact (List.append_inj' h.2 (by simp)).1

/-- A queue stays as it is under writes to another one. -/
theorem Db.IsQueue.apply_other {db : Db} {name name' : Bytes} {front : ℕ} {items : List Bytes}
    {ws : List Write} (h : db.IsQueue name' front items) (hne : name' ≠ name)
    (hws : ∀ w ∈ ws, w.OnKeys (IsQueueKey name)) : Db.IsQueue (db.apply ws) name' front items := by
  apply h.congr
  · apply get_apply_of_onKeys hws
    rintro (heq | ⟨seq, heq⟩)
    · exact hne (qsizeKey_inj heq)
    · exact qsizeKey_ne_qitemKey name' name seq heq
  · intro seq _
    apply get_apply_of_onKeys hws
    rintro (heq | ⟨seq', heq⟩)
    · exact qsizeKey_ne_qitemKey name name' seq heq.symm
    · exact hne (name_of_qitemKey heq)

/-- The change of a size writes to its queue only. -/
theorem onQueue_incrQsize (db : Db) (name : Bytes) (incr : ℤ) :
    ∀ w ∈ (incrQsize db name incr).2, w.OnKeys (IsQueueKey name) := by
  intro w hw
  unfold incrQsize at hw
  split at hw
  · cases hw
  · dsimp only at hw
    split at hw
    · simp only [List.mem_cons, List.not_mem_nil, or_false] at hw
      rcases hw with rfl | rfl | rfl
      · exact Or.inl rfl
      · exact Or.inr ⟨_, rfl⟩
      · exact Or.inr ⟨_, rfl⟩
    · rw [List.mem_singleton.mp hw]
      exact Or.inl rfl

/-- The move of a pointer writes to its queue only. -/
theorem onQueue_pushSeq (name : Bytes) (e : QueueEnd) (l : Lookup) :
    ∀ w ∈ (pushSeq name e l).2, w.OnKeys (IsQueueKey name) := by
  intro w hw
  unfold pushSeq at hw
  split at hw
  · rw [List.mem_singleton.mp hw]
    exact Or.inr ⟨_, rfl⟩
  · simp only [List.mem_cons, List.not_mem_nil, or_false] at hw
    rcases hw with rfl | rfl
    · exact Or.inr ⟨_, rfl⟩
    · exact Or.inr ⟨_, rfl⟩

/-- A push writes to its queue only. -/
theorem onQueue_qpush (db : Db) (name item : Bytes) (e : QueueEnd) (logType : BinlogType) :
    ∀ w ∈ (qpush db name item e logType).2, w.OnKeys (IsQueueKey name) := by
  intro w hw
  simp only [qpush] at hw
  split at hw
  · cases hw
  · split at hw
    · cases hw
    · split at hw
      · cases hw
      · simp only [List.mem_append, List.mem_cons] at hw
        rcases hw with hw | rfl | rfl | hw
        · exact onQueue_pushSeq name e _ w hw
        · exact Or.inr ⟨_, rfl⟩
        · trivial
        · exact onQueue_incrQsize db name 1 w hw

/-- A pop writes to its queue only. -/
theorem onQueue_qpop (db : Db) (name : Bytes) (e : QueueEnd) (logType : BinlogType) :
    ∀ w ∈ (qpop db name e logType).2.2, w.OnKeys (IsQueueKey name) := by
  intro w hw
  unfold qpop at hw
  split at hw
  · cases hw
  · cases hw
  · split at hw
    · cases hw
    · dsimp only at hw
      split at hw
      · cases hw
      · simp only [List.mem_append, List.mem_cons] at hw
        rcases hw with rfl | rfl | hw | hw
        · exact Or.inr ⟨_, rfl⟩
        · trivial
        · exact onQueue_incrQsize db name (-1) w hw
        · split at hw
          · rw [List.mem_singleton.mp hw]
            exact Or.inr ⟨_, rfl⟩
          · cases hw

/-- `qset` writes to its queue only. -/
theorem onQueue_qset (db : Db) (name : Bytes) (index : ℤ) (item : Bytes) (logType : BinlogType) :
    ∀ w ∈ (qset db name index item logType).2, w.OnKeys (IsQueueKey name) := by
  intro w hw
  unfold qset at hw
  split at hw
  · cases hw
  · split at hw
    · cases hw
    · dsimp only at hw
      split at hw
      · cases hw
      · cases hw
      · simp only [List.mem_cons, List.not_mem_nil, or_false] at hw
        rcases hw with rfl | rfl
        · exact Or.inr ⟨_, rfl⟩
        · trivial

end Ssdb
