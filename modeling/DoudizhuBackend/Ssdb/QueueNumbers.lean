/-
# Queues under their numbers

The items of a queue lie under sequence numbers (`numbered`), and an entry of the binlog names the number
of the item that it is about (`queueEntry`), or the name of the queue from which one was taken.  The
operations of the master lead from one version of a queue to the next as their entries say
(`Operation.ships`), and leave the other queues alone.
-/
import DoudizhuBackend.OperationShipping
import DoudizhuBackend.Ssdb.ReplicaMaster

namespace Ssdb

/-! ## Numbers -/

/-- The numbers from the front pointer to the back pointer. -/
def queueNumbers (db : Db) (name : Bytes) : List ℕ :=
  match qgetUint64 db name qfrontSeq, qgetUint64 db name qbackSeq with
  | .found front, .found back => List.range' front (back + 1 - front)
  | _, _ => []

/-- A queue by the numbers of its items. -/
def numbered (db : Db) (name : Bytes) : NumberedQueue ℕ Bytes where
  numbers := queueNumbers db name
  item n := if n ∈ queueNumbers db name then qgetBySeq db name n else none

/-- A list whose first item has the number `front`. -/
def numberedFrom (front : ℕ) (items : List Bytes) : NumberedQueue ℕ Bytes where
  numbers := List.range' front items.length
  item n := if front ≤ n then items[n - front]? else none

/-- The items of a queue are those of its numbers. -/
theorem queueItems_eq_filterMap (db : Db) (name : Bytes) :
    queueItems db name = (numbered db name).numbers.filterMap (numbered db name).item := by
  have hitems : queueItems db name = (queueNumbers db name).filterMap (qgetBySeq db name) := by
    unfold queueItems queueNumbers
    cases qgetUint64 db name qfrontSeq <;> cases qgetUint64 db name qbackSeq <;> rfl
  rw [hitems]
  exact List.filterMap_congr fun n hn => (if_pos hn).symm

namespace Db.IsQueue

variable {db : Db} {name : Bytes} {front : ℕ} {items : List Bytes}

/-- A queue has consecutive numbers. -/
theorem queueNumbers_eq (h : db.IsQueue name front items) :
    queueNumbers db name = List.range' front items.length := by
  have hfront := h.qgetUint64_eq .front
  have hback := h.qgetUint64_eq .back
  simp only [QueueEnd.seq] at hfront hback
  rw [queueNumbers, hfront, hback]
  split_ifs with hnil
  · rw [hnil]
    rfl
  · have hbounds := h.front_lt hnil
    dsimp only
    congr 1
    omega

/-- So it is the queue with its first number. -/
theorem numbered_eq (h : db.IsQueue name front items) : numbered db name = numberedFrom front items := by
  unfold numbered numberedFrom
  rw [h.queueNumbers_eq]
  congr 1
  funext n
  have hmem : n ∈ List.range' front items.length ↔ front ≤ n ∧ n < front + items.length := List.mem_range'_1
  by_cases hn : front ≤ n ∧ n < front + items.length
  · have hget := h.get_item (i := n - front) (by omega)
    rw [Nat.add_sub_cancel' hn.1] at hget
    rw [if_pos (hmem.mpr hn), if_pos hn.1, qgetBySeq, hget, List.getElem?_eq_getElem (by omega)]
    rfl
  · rw [if_neg fun h => hn (hmem.mp h)]
    split
    · rw [List.getElem?_eq_none (by omega)]
    · rfl

end Db.IsQueue

/-- Every number has an item. -/
theorem numberedFrom_item_ne_none {front : ℕ} {items : List Bytes} {n : ℕ}
    (hn : n ∈ (numberedFrom front items).numbers) : (numberedFrom front items).item n ≠ none := by
  obtain ⟨hle, hlt⟩ := List.mem_range'_1.mp hn
  show (if front ≤ n then items[n - front]? else none) ≠ none
  rw [if_pos hle, List.getElem?_eq_getElem (by omega)]
  exact Option.some_ne_none _

/-! ## What an entry says -/

/-- The end of the list for an end of the queue. -/
def QueueEnd.listEnd : QueueEnd → ListEnd
  | .front => .front
  | .back => .back

/-- A push is a push at the end of the list. -/
theorem QueueEnd.push_eq (e : QueueEnd) (item : Bytes) (items : List Bytes) :
    e.push item items = e.listEnd.push item items := by cases e <;> rfl

/-- A pop leaves the rest of the list. -/
theorem QueueEnd.rest_eq (e : QueueEnd) (items : List Bytes) : e.rest items = e.listEnd.rest items := by
  cases e <;> rfl

/-- The number under which a slave reads a key as that of an item of the queue. -/
def itemNumber (name k : Bytes) : Option ℕ :=
  match decodeQitemKey k with
  | some (name', n) => if name' = name ∧ qitemMinSeq ≤ n ∧ n ≤ qitemMaxSeq then some n else none
  | none => none

/-- What an entry of the log does to the queue. -/
def queueEntry (name : Bytes) (l : Binlog) : QueueEntry ℕ :=
  match l.cmd with
  | .qpushFront => (itemNumber name l.key).elim .other (.push .front)
  | .qpushBack => (itemNumber name l.key).elim .other (.push .back)
  | .qpopFront => if l.key = name then .pop .front else .other
  | .qpopBack => if l.key = name then .pop .back else .other
  | .qset => (itemNumber name l.key).elim .other .set
  | _ => .other

/-- The number of an item is read from its key. -/
theorem itemNumber_encode {name : Bytes} (hname : IsShort name) {n : ℕ} (hmin : qitemMinSeq ≤ n)
    (hmax : n ≤ qitemMaxSeq) : itemNumber name (encodeQitemKey name n) = some n := by
  have hn : n < 2 ^ 64 := by
    simp only [qitemMaxSeq] at hmax
    omega
  rw [itemNumber, decodeQitemKey_encode hname hn]
  exact if_pos ⟨rfl, hmin, hmax⟩

/-- What the key of an item is read as. -/
theorem exists_decode {name : Bytes} (hname : IsShort name) (seq : ℕ) :
    ∃ n, decodeQitemKey (encodeQitemKey name seq) = some (name, n) ∧
      encodeQitemKey name n = encodeQitemKey name seq := by
  have hlt : ofBigEndian (bigEndian seq) < 2 ^ 64 := by
    have := ofBigEndian_lt (bigEndian seq)
    rw [length_bigEndian] at this
    exact this
  have hkey : encodeQitemKey name (ofBigEndian (bigEndian seq)) = encodeQitemKey name seq := by
    rw [encodeQitemKey, encodeQitemKey, bigEndian_ofBigEndian (length_bigEndian seq)]
  exact ⟨_, by rw [← hkey, decodeQitemKey_encode hname hlt], hkey⟩

/-- The key of an item of a queue with a short name is read as that. -/
theorem encode_of_itemNumber {name name' : Bytes} (hname : IsShort name') {seq n : ℕ}
    (h : itemNumber name (encodeQitemKey name' seq) = some n) :
    name' = name ∧ encodeQitemKey name' seq = encodeQitemKey name n ∧ qitemMinSeq ≤ n ∧ n ≤ qitemMaxSeq := by
  obtain ⟨m, hdecode, hkey⟩ := exists_decode hname seq
  rw [itemNumber, hdecode] at h
  dsimp only at h
  split at h
  · rename_i hif
    obtain rfl := Option.some.inj h
    exact ⟨hif.1, by rw [← hif.1, hkey], hif.2⟩
  · cases h

/-- An entry leads from one version of the queue to the next, and its key is that of the item that it
gives. -/
structure Binlog.Records (l : Binlog) (name : Bytes) (q q' : NumberedQueue ℕ Bytes) : Prop where
  sync : l.type = .sync
  leads : (queueEntry name l).Leads q q'
  keyed : ∀ n, (queueEntry name l).Gives n → l.key = encodeQitemKey name n

/-! ## The operations on a queue -/

/-- The number that a push takes. -/
def pushNumber (front : ℕ) (items : List Bytes) : QueueEnd → ℕ
  | .front => if items = [] then qitemSeqInit else front - 1
  | .back => if items = [] then qitemSeqInit else front + items.length

/-- The first item of a queue has the number in the middle. -/
theorem pushNumber_nil (front : ℕ) (e : QueueEnd) : pushNumber front [] e = qitemSeqInit := by
  cases e <;> simp [pushNumber]

section Leads

variable {front : ℕ} {items : List Bytes}

/-- A push into an empty queue. -/
theorem leads_push_nil (front : ℕ) (e : ListEnd) (item : Bytes) (n : ℕ) :
    (QueueEntry.push e n).Leads (numberedFrom front []) (numberedFrom n [item]) := by
  refine .push ?_ (by simp [numberedFrom]) fun k hk => ?_
  · cases e <;> rfl
  · show (if n ≤ k then [item][k - n]? else none) = if front ≤ k then ([] : List Bytes)[k - front]? else none
    rw [List.getElem?_nil, ite_self]
    split
    · rw [List.getElem?_eq_none (by rw [List.length_singleton]; omega)]
    · rfl

/-- A push at the front takes the number before. -/
theorem leads_push_front (hfront : 0 < front) (item : Bytes) :
    (QueueEntry.push .front (front - 1)).Leads (numberedFrom front items)
      (numberedFrom (front - 1) (item :: items)) := by
  refine .push ?_ ?_ fun k hk => ?_
  · show List.range' (front - 1) (items.length + 1) = (front - 1) :: List.range' front items.length
    rw [List.range'_succ, Nat.sub_add_cancel hfront]
  · show front - 1 ∉ List.range' front items.length
    rw [List.mem_range'_1]
    omega
  · show (if front - 1 ≤ k then (item :: items)[k - (front - 1)]? else none) =
      if front ≤ k then items[k - front]? else none
    by_cases hle : front ≤ k
    · rw [if_pos (by omega), if_pos hle, show k - (front - 1) = k - front + 1 from by omega,
        List.getElem?_cons_succ]
    · rw [if_neg (by omega), if_neg hle]

/-- A push at the back takes the number behind. -/
theorem leads_push_back (item : Bytes) :
    (QueueEntry.push .back (front + items.length)).Leads (numberedFrom front items)
      (numberedFrom front (items ++ [item])) := by
  refine .push ?_ ?_ fun k hk => ?_
  · show List.range' front (items ++ [item]).length = List.range' front items.length ++ [front + items.length]
    rw [List.length_append, List.length_singleton, List.range'_1_concat]
  · show front + items.length ∉ List.range' front items.length
    rw [List.mem_range'_1]
    omega
  · show (if front ≤ k then (items ++ [item])[k - front]? else none) =
      if front ≤ k then items[k - front]? else none
    by_cases hlt : k - front < items.length
    · rw [List.getElem?_append_left hlt]
    · split
      · rw [List.getElem?_eq_none (by rw [List.length_append, List.length_singleton]; omega),
          List.getElem?_eq_none (by omega)]
      · rfl

/-- The entry of a push leads to the queue with the item. -/
theorem leads_push (hfront : items ≠ [] → 0 < front) (e : QueueEnd) (item : Bytes) :
    (QueueEntry.push e.listEnd (pushNumber front items e)).Leads (numberedFrom front items)
      (numberedFrom (frontAfterPush front items e) (e.push item items)) := by
  rcases eq_or_ne items [] with rfl | hne
  · have hfront : frontAfterPush front [] e = qitemSeqInit := by cases e <;> simp [frontAfterPush]
    have hpush : e.push item [] = [item] := by cases e <;> rfl
    rw [pushNumber_nil, hfront, hpush]
    exact leads_push_nil front e.listEnd item qitemSeqInit
  · cases e with
    | front =>
        simp only [pushNumber, frontAfterPush, if_neg hne]
        exact leads_push_front (hfront hne) item
    | back =>
        simp only [pushNumber, frontAfterPush, if_neg hne]
        exact leads_push_back item

/-- The entry of a pop leads to the queue without it. -/
theorem leads_pop (hne : items ≠ []) (e : QueueEnd) :
    (QueueEntry.pop e.listEnd).Leads (numberedFrom front items)
      (numberedFrom (frontAfterPop front e) (e.rest items)) := by
  have hpos := List.length_pos_of_ne_nil hne
  have hitem := Db.IsQueue.getElem?_rest front e hne
  refine .pop (n := endSeq front items e) ?_ (fun k hk => ?_) ?_
  · obtain ⟨r, hr⟩ := Nat.exists_eq_succ_of_ne_zero hpos.ne'
    cases e with
    | front =>
        show List.range' front items.length = front :: List.range' (front + 1) items.tail.length
        rw [List.length_tail, hr, List.range'_succ]
        rfl
    | back =>
        show List.range' front items.length =
          List.range' front items.dropLast.length ++ [front + items.length - 1]
        rw [List.length_dropLast, hr, List.range'_1_concat]
        rfl
  · exact (hitem k).trans (if_neg hk)
  · exact (hitem _).trans (if_pos rfl)

/-- The entry of a new item leads to the queue with it. -/
theorem leads_set {i : ℕ} (hi : i < items.length) (item : Bytes) :
    (QueueEntry.set (front + i)).Leads (numberedFrom front items) (numberedFrom front (items.set i item)) := by
  refine .set ?_ ?_ fun k hk => ?_
  · show List.range' front (items.set i item).length = List.range' front items.length
    rw [List.length_set]
  · exact List.mem_range'_1.mpr (by omega)
  · show (if front ≤ k then (items.set i item)[k - front]? else none) =
      if front ≤ k then items[k - front]? else none
    split
    · rw [List.getElem?_set_ne (by omega)]
    · rfl

end Leads

namespace Db.IsQueue

variable {db : Db} {name : Bytes} {front : ℕ} {items : List Bytes}

/-- The entry of a push. -/
theorem logsOf_qpush (h : db.IsQueue name front items) {e : QueueEnd} (hroom : 0 < room db name e)
    (item : Bytes) (logType : BinlogType) (seq : ℕ) :
    logsOf seq (qpush db name item e logType).2 =
        [⟨seq + 1, logType, e.pushCommand, encodeQitemKey name (pushNumber front items e)⟩] ∧
      qitemMinSeq ≤ pushNumber front items e ∧ pushNumber front items e ≤ qitemMaxSeq := by
  rcases eq_or_ne items [] with rfl | hne
  · have hseq : pushSeq name e (qgetUint64 db name e.seq) =
        (qitemSeqInit, [.put (encodeQitemKey name qfrontSeq) (.int qitemSeqInit),
          .put (encodeQitemKey name qbackSeq) (.int qitemSeqInit)]) := by
      rw [h.qgetUint64_eq, if_pos rfl]
      rfl
    rw [h.qpush_eq hseq (by decide) (by decide), pushNumber_nil]
    exact ⟨rfl, by decide, by decide⟩
  · have hbounds := h.front_lt hne
    have hseq := h.pushSeq_eq hne e
    have hmax : qitemMaxSeq = 2 ^ 63 - 1 := by decide
    cases e with
    | front =>
        rw [h.room_front, if_neg hne] at hroom
        rw [h.qpush_eq hseq (by omega) (by omega), pushNumber, if_neg hne]
        exact ⟨rfl, by omega, by omega⟩
    | back =>
        rw [h.room_back, if_neg hne] at hroom
        rw [h.qpush_eq hseq (by omega) (by omega), pushNumber, if_neg hne]
        exact ⟨rfl, by omega, by omega⟩

/-- The entry of a removal. -/
theorem logsOf_qpop (h : db.IsQueue name front items) (hne : items ≠ []) (e : QueueEnd) (logType : BinlogType)
    (seq : ℕ) : logsOf seq (qpop db name e logType).2.2 = [⟨seq + 1, logType, e.popCommand, name⟩] := by
  have hpos := List.length_pos_of_ne_nil hne
  obtain ⟨item, hitem⟩ := e.exists_peek hne
  have hget : qgetBySeq db name (endSeq front items e) = some item := by
    rw [qgetBySeq, h.get_endSeq e hne, hitem]
    rfl
  rw [qpop, h.qgetUint64_of_ne_nil e hne]
  simp only [hget, h.incrQsize_neg_one]
  rcases Nat.lt_or_ge items.length 2 with hone | hmore
  · simp only [if_pos (show items.length ≤ 1 by omega), if_neg (show ¬ (items.length : ℤ) - 1 = -1 by omega),
      if_neg (show ¬ 0 < (items.length : ℤ) - 1 by omega)]
    rfl
  · simp only [if_neg (show ¬ items.length ≤ 1 by omega), if_neg (show ¬ (items.length : ℤ) - 1 = -1 by omega),
      if_pos (show 0 < (items.length : ℤ) - 1 by omega)]
    rfl

end Db.IsQueue

/-! ## What an operation does to a queue -/

/-- The queue that the operation is on has a short name. -/
def Operation.ShortQueue : Operation → Prop
  | qpush name _ _ | qpop name _ | qset name _ _ => IsShort name
  | _ => True

instance (name : Bytes) : Decidable (IsShort name) := inferInstanceAs (Decidable (_ ≤ _))

instance : DecidablePred Operation.ShortQueue
  | .qpush name _ _ | .qpop name _ | .qset name _ _ => inferInstanceAs (Decidable (IsShort name))
  | .set .. | .setnx .. | .getset .. | .setbit .. | .incr .. | .del .. | .multiSet .. | .multiDel ..
  | .hset .. | .hdel .. | .hincr .. | .zset .. | .zdel .. | .zincr .. => inferInstanceAs (Decidable True)

/-- The entries `ls` behind the number `seq` lead from one version of a queue to the next: the first one
does, and the others are not about the queue. -/
structure LogsLead (name : Bytes) (q q' : NumberedQueue ℕ Bytes) (seq : ℕ) (ls : List Binlog) : Prop where
  nil : ls = [] → q' = q
  first : ∀ l ∈ ls, l.seq = seq + 1 → l.Records name q q'
  later : ∀ l ∈ ls, l.seq ≠ seq + 1 → l.Records name q' q'

namespace LogsLead

variable {name : Bytes} {q : NumberedQueue ℕ Bytes} {seq : ℕ} {ls : List Binlog}

/-- No entries lead nowhere. -/
theorem none (name : Bytes) (q : NumberedQueue ℕ Bytes) (seq : ℕ) : LogsLead name q q seq [] :=
  ⟨fun _ => rfl, by simp, by simp⟩

/-- Entries that are not about the queue. -/
theorem other (h : ∀ l ∈ ls, l.type = .sync ∧ queueEntry name l = .other) : LogsLead name q q seq ls := by
  have hrecords : ∀ l ∈ ls, l.Records name q q := by
    intro l hl
    obtain ⟨htype, hentry⟩ := h l hl
    refine ⟨htype, ?_, ?_⟩
    · rw [hentry]
      exact .other rfl rfl
    · rw [hentry]
      exact fun n hn => hn.elim
  exact ⟨fun _ => rfl, fun l hl _ => hrecords l hl, fun l hl _ => hrecords l hl⟩

/-- One entry leads as far as it records. -/
theorem single {q' : NumberedQueue ℕ Bytes} {l : Binlog} (hseq : l.seq = seq + 1) (h : l.Records name q q') :
    LogsLead name q q' seq [l] where
  nil := by simp
  first := by
    intro l' hl' _
    rwa [List.mem_singleton.mp hl']
  later := by
    intro l' hl' hne
    rw [List.mem_singleton.mp hl'] at hne
    exact absurd hseq hne

end LogsLead

section Ships

variable {db : Db} {name : Bytes}

/-- An operation on one queue leaves the others alone. -/
theorem numbered_apply_other {name' : Bytes} {ws : List Write} (h : db.AllQueues) (hne : name ≠ name')
    (hws : ∀ w ∈ ws, w.OnKeys (IsQueueKey name')) : numbered (db.apply ws) name = numbered db name := by
  obtain ⟨front, items, hq⟩ := h name
  rw [hq.numbered_eq, (hq.apply_other hne hws).numbered_eq]

/-- An entry that brings an item. -/
theorem Binlog.Records.item {q q' : NumberedQueue ℕ Bytes} {l : Binlog} {entry : QueueEntry ℕ} {n : ℕ}
    (hsync : l.type = .sync) (hentry : queueEntry name l = entry) (hkey : l.key = encodeQitemKey name n)
    (hgives : ∀ k, entry.Gives k → k = n) (hleads : entry.Leads q q') : l.Records name q q' := by
  refine ⟨hsync, by rwa [hentry], fun k hk => ?_⟩
  rw [hentry] at hk
  rw [hgives k hk, hkey]

/-- The items of other queues have no number here. -/
theorem itemNumber_of_ne {name' : Bytes} (hname : IsShort name') (hne : name ≠ name') (seq : ℕ) :
    itemNumber name (encodeQitemKey name' seq) = none := by
  cases h : itemNumber name (encodeQitemKey name' seq) with
  | none => rfl
  | some n => exact absurd (encode_of_itemNumber hname h).1.symm hne

/-- A push is recorded in the log. -/
theorem ships_qpush (hdb : db.AllQueues) {name' : Bytes} (hname : IsShort name') (item : Bytes) (e : QueueEnd)
    (seq : ℕ) :
    LogsLead name (numbered db name) (numbered (db.apply (qpush db name' item e .sync).2) name) seq
      (logsOf seq (qpush db name' item e .sync).2) := by
  obtain ⟨front, items, hq⟩ := hdb name'
  rcases Nat.eq_zero_or_pos (room db name' e) with hfull | hroom
  · rw [hq.qpush_full hfull]
    exact .none name _ seq
  · obtain ⟨hlogs, hmin, hmax⟩ := hq.logsOf_qpush hroom item .sync seq
    rw [hlogs]
    rcases eq_or_ne name name' with rfl | hne
    · have hentry : queueEntry name ⟨seq + 1, .sync, e.pushCommand,
          encodeQitemKey name (pushNumber front items e)⟩ =
            .push e.listEnd (pushNumber front items e) := by
        cases e <;> simp only [queueEntry, QueueEnd.pushCommand, itemNumber_encode hname hmin hmax] <;> rfl
      refine .single rfl (.item rfl hentry rfl (fun k hk => hk) ?_)
      rw [hq.numbered_eq, (hq.qpush_spec hroom item .sync).2.numbered_eq]
      exact leads_push (fun hne => by have := (hq.front_lt hne).1; omega) e item
    · rw [numbered_apply_other hdb hne (onQueue_qpush db name' item e .sync)]
      refine .other fun l hl => ?_
      rw [List.mem_singleton.mp hl]
      refine ⟨rfl, ?_⟩
      cases e <;> simp only [queueEntry, QueueEnd.pushCommand, itemNumber_of_ne hname hne] <;> rfl

/-- A pop is recorded in the log. -/
theorem ships_qpop (hdb : db.AllQueues) (name' : Bytes) (e : QueueEnd) (seq : ℕ) :
    LogsLead name (numbered db name) (numbered (db.apply (qpop db name' e .sync).2.2) name) seq
      (logsOf seq (qpop db name' e .sync).2.2) := by
  obtain ⟨front, items, hq⟩ := hdb name'
  rcases eq_or_ne items [] with rfl | hnil
  · rw [hq.qpop_nil]
    exact .none name _ seq
  · rw [hq.logsOf_qpop hnil]
    rcases eq_or_ne name name' with rfl | hne
    · have hentry : queueEntry name ⟨seq + 1, .sync, e.popCommand, name⟩ = .pop e.listEnd := by
        cases e <;> exact if_pos rfl
      refine .single rfl ⟨rfl, ?_, ?_⟩
      · rw [hentry, hq.numbered_eq, (hq.qpop_spec e hnil .sync).2.2.numbered_eq]
        exact leads_pop hnil e
      · rw [hentry]
        exact fun n hn => hn.elim
    · rw [numbered_apply_other hdb hne (onQueue_qpop db name' e .sync)]
      refine .other fun l hl => ?_
      rw [List.mem_singleton.mp hl]
      refine ⟨rfl, ?_⟩
      cases e <;> exact if_neg hne.symm

/-- A new item is recorded in the log. -/
theorem ships_qset (hdb : db.AllQueues) {name' : Bytes} (hname : IsShort name') (index : ℤ) (item : Bytes)
    (seq : ℕ) :
    LogsLead name (numbered db name) (numbered (db.apply (qset db name' index item .sync).2) name) seq
      (logsOf seq (qset db name' index item .sync).2) := by
  obtain ⟨front, items, hq⟩ := hdb name'
  by_cases hindex : -(items.length : ℤ) ≤ index ∧ index < items.length
  · have hposition : indexPosition items index < items.length := by
      rw [indexPosition]
      split <;> omega
    have hlogs : logsOf seq (qset db name' index item .sync).2 =
        [⟨seq + 1, .sync, .qset, encodeQitemKey name' (front + indexPosition items index)⟩] := by
      rw [hq.qset_eq hindex]
      rfl
    rw [hlogs]
    rcases eq_or_ne name name' with rfl | hne
    · have hbounds := hq.front_lt (List.ne_nil_of_length_pos (by omega))
      have hupper := hq.upper (List.ne_nil_of_length_pos (by omega))
      have hnumber := itemNumber_encode hname (n := front + indexPosition items index) (by omega) (by omega)
      have hentry : queueEntry name ⟨seq + 1, .sync, .qset,
          encodeQitemKey name (front + indexPosition items index)⟩ =
            .set (front + indexPosition items index) := by
        simp only [queueEntry, hnumber]
        rfl
      refine .single rfl (.item rfl hentry rfl (fun k hk => hk) ?_)
      rw [hq.numbered_eq, (hq.qset_spec hindex item .sync).numbered_eq]
      exact leads_set hposition item
    · rw [numbered_apply_other hdb hne (onQueue_qset db name' index item .sync)]
      refine .other fun l hl => ?_
      rw [List.mem_singleton.mp hl]
      refine ⟨rfl, ?_⟩
      simp only [queueEntry, itemNumber_of_ne hname hne]
      rfl
  · rw [hq.qset_out hindex]
    exact .none name _ seq

/-- **What an operation does to a queue, its entries say.** -/
theorem Operation.ships (hdb : db.Stored) {op : Operation} (hop : op.ShortQueue) (seq : ℕ) :
    LogsLead name (numbered db name) (numbered (db.apply (op.writes db .sync)) name) seq
      (logsOf seq (op.writes db .sync)) := by
  have hqueues := hdb.store.queues
  by_cases hfamily : op.family = .queue
  · cases op with
    | qpush name' item e => exact ships_qpush hqueues hop item e seq
    | qpop name' e => exact ships_qpop hqueues name' e seq
    | qset name' index item => exact ships_qset hqueues hop index item seq
    | _ => cases hfamily
  · have hsame : numbered (db.apply (op.writes db .sync)) name = numbered db name := by
      obtain ⟨front, items, hq⟩ := hqueues name
      have hq' : Db.IsQueue (db.apply (op.writes db .sync)) name front items := hq.congr
        (Operation.get_apply hfamily db .sync (Or.inr rfl))
        fun seq _ => Operation.get_apply hfamily db .sync (Or.inl rfl)
      rw [hq.numbered_eq, hq'.numbered_eq]
    rw [hsame]
    obtain ⟨sets, hlogged⟩ := Operation.logged hdb.store.hashes hdb.members hfamily .sync
    refine .other fun l hl => ?_
    obtain ⟨htype, hcmd, -⟩ := hlogged.log _ _ _ (mem_logsOf hl)
    refine ⟨htype, ?_⟩
    -- the commands of the other families are no commands of queues
    unfold entryCommand at hcmd
    obtain ⟨t, -, hcmd⟩ := Option.bind_eq_some_iff.mp hcmd
    unfold queueEntry
    cases hl' : l.cmd <;> rw [hl'] at hcmd <;> try rfl
    all_goals
      exfalso
      revert hcmd
      cases sets <;> simp only [Bool.false_eq_true, if_true, if_false] <;> split_ifs <;> simp

end Ships

end Ssdb
