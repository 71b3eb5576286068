/-
# Bounded histories

The room results of a user and the notices are kept in SSDB queues, newest first: when a queue is full,
`insertRoomResult` and `addNotice` remove the oldest item before they push the new one.

Here the handlers run against SSDB's own queues: the queue commands are those of
`Ssdb/QueueCommands.lean`, with the records of a queue as `t_queue.cpp` keeps them.  Every push takes a
number one below that of the first item, and no number is used again, so a queue takes
`capacity` pushes at its front.  `histories_newest_first` says that up to then the queues
are the newest results and notices; `history_loses_item` that the next push is refused after the
oldest item has been removed.
-/
import DoudizhuBackend.GameData
import DoudizhuBackend.Ssdb.QueueCommands
import Mathlib.Data.List.Induction

open Php GameData

namespace Histories

/-! ## SSDB behind the handlers -/

/-- The bytes of a text. -/
def nameBytes (name : String) : Ssdb.Bytes :=
  (utf8Encode name).map fun b => ⟨b.toNat, b.toNat_lt⟩

/-- How items are written as texts (`json_encode`, for a result) and read again. -/
structure Codec where
  encode : Item → Ssdb.Bytes
  decode : Ssdb.Bytes → Item

/-- What `SSDB.php` makes of a reply with a number. -/
def replyNumber : List Ssdb.Bytes → ℤ
  | [_, val] => Ssdb.readInt val
  | _ => 0

/-- The answers of `SSDB.php` to the queue commands; the other commands are those of `exec`. -/
def execSsdb (codec : Codec) (w : World) : (c : Cmd) → Store × Ssdb.Db → c.Resp × (Store × Ssdb.Db)
  | .qsize name, (s, db) => ((replyNumber (Ssdb.procQsize db (nameBytes name))).toNat, (s, db))
  | .qpopBack name, (s, db) => ((), (s, (Ssdb.QueueCommand.qpopBack (nameBytes name) 1).exec db))
  | .qpushFront name item, (s, db) =>
      ((), (s, (Ssdb.QueueCommand.qpushFront (nameBytes name) (codec.encode item) []).exec db))
  | .qrange name offset limit, (s, db) =>
      ((Ssdb.procQrange db (nameBytes name) offset limit).tail.map codec.decode, (s, db))
  | c, (s, db) => ((exec w c s).1, ((exec w c s).2, db))

/-! ## Calls -/

/-- The calls that write a history. -/
inductive Call where
  | insertRoomResult (now : ℕ) (unionid : Value) (roomResult : RoomResult)
  | addNotice (noticeStr level : Value)

namespace Call

/-- What the call runs. -/
def handler : Call → Handler Unit
  | insertRoomResult now unionid roomResult => GameData.insertRoomResult now unionid roomResult
  | addNotice noticeStr level => GameData.addNotice noticeStr level

/-- The queue that the call writes. -/
def queue : Call → String
  | insertRoomResult _ unionid _ => "roomresult_" ++ unionid.text
  | addNotice _ level => if Value.looseEq level (.num 1) then "notice_queue_1" else "notice_queue_2"

/-- The item that the call pushes. -/
def item : Call → Item
  | insertRoomResult now _ roomResult => .roomResult roomResult (Calendar.dateTime now)
  | addNotice noticeStr _ => .notice noticeStr

/-- How many items the queue keeps. -/
def bound : Call → ℕ
  | insertRoomResult _ _ _ => 10
  | addNotice _ _ => 100

theorem handler_eq (c : Call) : c.handler = pushBounded c.queue c.bound c.item := by
  cases c with
  | insertRoomResult now unionid roomResult => rfl
  | addNotice noticeStr level =>
      show GameData.addNotice noticeStr level =
        pushBounded (if Value.looseEq level (.num 1) then "notice_queue_1" else "notice_queue_2") 100
          (.notice noticeStr)
      unfold GameData.addNotice
      split
      · rfl
      · rfl

end Call

/-- The stores after a sequence of calls, each a whole request. -/
def run (codec : Codec) (w : World) (s : Store) (calls : List Call) : Store × Ssdb.Db :=
  calls.foldl (fun st c => (c.handler.run (execSsdb codec w) st).2) (s, OrderedMap.empty)

/-- The results of a user, the newest first. -/
def resultsOf (calls : List Call) (unionid : Value) : List Item :=
  (calls.filterMap fun
    | .insertRoomResult now u r =>
        if u.text = unionid.text then some (.roomResult r (Calendar.dateTime now)) else none
    | .addNotice _ _ => none).reverse

/-- The notices of a level, the newest first. -/
def noticesOf (calls : List Call) (first : Bool) : List Item :=
  (calls.filterMap fun
    | .insertRoomResult _ _ _ => none
    | .addNotice noticeStr level =>
        if Value.looseEq level (.num 1) = first then some (.notice noticeStr) else none).reverse

/-- How many items can be pushed at the front of a queue that is never empty again. -/
def capacity : ℕ := Ssdb.qitemSeqInit - Ssdb.qitemMinSeq

/-! ## One push -/

/-- A push into a list that keeps at most `bound` items. -/
def bounded {α : Type} (bound : ℕ) (q : List α) (item : α) : List α :=
  item :: if bound ≤ q.length then q.dropLast else q

/-- The newest items after a push are the new item and the newest before. -/
theorem bounded_take {α : Type} {bound : ℕ} (hbound : 0 < bound) (q : List α) (item : α) :
    bounded bound (q.take bound) item = (item :: q).take bound := by
  obtain ⟨n, rfl⟩ := Nat.exists_eq_succ_of_ne_zero hbound.ne'
  rw [bounded, List.take_succ_cons, List.length_take]
  split
  · rename_i h
    rw [List.dropLast_eq_take, List.take_take, List.length_take]
    congr 2
    omega
  · rename_i h
    rw [List.take_of_length_le (show q.length ≤ n + 1 by omega),
      List.take_of_length_le (show q.length ≤ n by omega)]

/-- A text is known by its bytes. -/
theorem nameBytes_inj {name name' : String} (h : nameBytes name = nameBytes name') : name = name' := by
  have hbytes : utf8Encode name = utf8Encode name' := by
    refine List.map_injective_iff.mpr (fun a b hab => ?_) h
    exact UInt8.toNat_inj.mp (congrArg Fin.val hab)
  have hutf8 : name.toList.utf8Encode = name'.toList.utf8Encode := congrArg List.toByteArray hbytes
  rw [String.utf8Encode_toList, String.utf8Encode_toList] at hutf8
  exact String.toByteArray_inj.mp hutf8

section Push

variable {codec : Codec} {w : World} {s : Store} {db : Ssdb.Db} {name : String} {front : ℕ}
  {q : List Item}

/-- The queue `name` of the database holds the items `q`, the first of them under the number `front`. -/
abbrev Queue (codec : Codec) (db : Ssdb.Db) (name : String) (front : ℕ) (q : List Item) : Prop :=
  db.IsQueue (nameBytes name) front (q.map codec.encode)

theorem qsize_answer (h : Queue codec db name front q) :
    execSsdb codec w (.qsize name) (s, db) = (q.length, (s, db)) := by
  show ((replyNumber (Ssdb.procQsize db (nameBytes name))).toNat, (s, db)) = _
  rw [Ssdb.procQsize_eq h, replyNumber, Ssdb.readInt_str, Int.toNat_natCast, List.length_map]

/-- The database after the oldest item is removed from a full queue. -/
def popped (db : Ssdb.Db) (name : String) : Ssdb.Db :=
  db.apply (Ssdb.qpop db (nameBytes name) .back .sync).2.2

/-- The database after an item is pushed. -/
def pushed (codec : Codec) (db : Ssdb.Db) (name : String) (item : Item) : Ssdb.Db :=
  db.apply (Ssdb.qpush db (nameBytes name) (codec.encode item) .front .sync).2

theorem exec_qpushFront (item : Item) :
    (Ssdb.QueueCommand.qpushFront (nameBytes name) (codec.encode item) []).exec db =
      pushed codec db name item := by
  show (if (Ssdb.qpush db (nameBytes name) (codec.encode item) .front .sync).1 = -1 then
    (pushed codec db name item, [Ssdb.ascii "error"])
    else Ssdb.procQpush (pushed codec db name item) (nameBytes name) .front _ []).1 = _
  split
  · rfl
  · rfl

/-- The database after a bounded push. -/
theorem pushBounded_ssdb (h : Queue codec db name front q) (bound : ℕ) (item : Item) :
    ((pushBounded name bound item).run (execSsdb codec w) (s, db)).2 =
      (s, pushed codec (if bound ≤ q.length then popped db name else db) name item) := by
  unfold pushBounded Handler.when
  rw [Prog.run_bind, Prog.run_call, qsize_answer h]
  dsimp only
  by_cases hfull : bound ≤ q.length
  · simp only [hfull, decide_true, if_true]
    show (s, (Ssdb.QueueCommand.qpushFront (nameBytes name) (codec.encode item) []).exec _) = _
    rw [exec_qpushFront]
    rfl
  · simp only [hfull, decide_false, if_false]
    show (s, (Ssdb.QueueCommand.qpushFront (nameBytes name) (codec.encode item) []).exec _) = _
    rw [exec_qpushFront]

theorem popped_queue (h : Queue codec db name front q) (hne : q ≠ []) :
    Queue codec (popped db name) name front q.dropLast ∧
      Ssdb.KeepsOthers (nameBytes name) db (popped db name) := by
  have hne' : q.map codec.encode ≠ [] := by simpa using hne
  obtain ⟨-, -, hq⟩ := Ssdb.Db.IsQueue.qpop_spec h .back hne' .sync
  refine ⟨?_, Ssdb.keepsOthers_apply (Ssdb.onQueue_qpop db _ .back .sync)⟩
  rw [Queue, List.map_dropLast]
  exact hq

theorem pushed_queue (h : Queue codec db name front q) (hroom : q = [] ∨ Ssdb.qitemMinSeq + 1 < front)
    (item : Item) :
    Queue codec (pushed codec db name item) name
        (if q = [] then Ssdb.qitemSeqInit else front - 1) (item :: q) ∧
      Ssdb.KeepsOthers (nameBytes name) db (pushed codec db name item) := by
  have hpos : 0 < Ssdb.room db (nameBytes name) .front := by
    rw [h.room_front]
    split
    · decide
    · rename_i hne
      have := hroom.resolve_left (by simpa using hne)
      omega
  obtain ⟨-, hq⟩ := Ssdb.Db.IsQueue.qpush_spec h hpos (codec.encode item) .sync
  refine ⟨?_, Ssdb.keepsOthers_apply (Ssdb.onQueue_qpush db _ _ .front .sync)⟩
  simp only [Ssdb.frontAfterPush, List.map_eq_nil_iff] at hq
  exact hq

/-- **A bounded push**, as long as there is a number for the item. -/
theorem pushBounded_queue (h : Queue codec db name front q)
    (hroom : q = [] ∨ Ssdb.qitemMinSeq + 1 < front) {bound : ℕ} (hbound : 2 ≤ bound) (item : Item) :
    let st := ((pushBounded name bound item).run (execSsdb codec w) (s, db)).2
    Queue codec st.2 name (if q = [] then Ssdb.qitemSeqInit else front - 1) (bounded bound q item) ∧
      Ssdb.KeepsOthers (nameBytes name) db st.2 := by
  intro st
  have hst : st = _ := pushBounded_ssdb h bound item
  rw [hst, bounded]
  by_cases hfull : bound ≤ q.length
  · have hne : q ≠ [] := List.ne_nil_of_length_pos (by omega)
    obtain ⟨hpopped, hothers⟩ := popped_queue h hne
    have hrest : q.dropLast ≠ [] := List.ne_nil_of_length_pos (by rw [List.length_dropLast]; omega)
    obtain ⟨hpushed, hothers'⟩ := pushed_queue hpopped (Or.inr (hroom.resolve_left hne)) item
    rw [if_neg hrest] at hpushed
    rw [if_pos hfull, if_pos hfull, if_neg hne]
    exact ⟨hpushed, hothers.trans hothers'⟩
  · rw [if_neg hfull, if_neg hfull]
    exact pushed_queue h hroom item

/-- A bounded push into a full queue for which there is no number left. -/
theorem pushBounded_exhausted (h : Queue codec db name front q) {bound : ℕ} (hbound : 2 ≤ bound)
    (hfull : bound ≤ q.length) (hfront : front = Ssdb.qitemMinSeq + 1) (item : Item) :
    Queue codec ((pushBounded name bound item).run (execSsdb codec w) (s, db)).2.2 name front
      q.dropLast := by
  have hne : q ≠ [] := List.ne_nil_of_length_pos (by omega)
  have hrest : q.dropLast.map codec.encode ≠ [] := by
    refine List.ne_nil_of_length_pos ?_
    rw [List.length_map, List.length_dropLast]
    omega
  obtain ⟨hpopped, -⟩ := popped_queue h hne
  have hroom : Ssdb.room (popped db name) (nameBytes name) .front = 0 := by
    rw [hpopped.room_front, if_neg hrest]
    omega
  rw [pushBounded_ssdb h bound item, if_pos hfull]
  show Queue codec (pushed codec (popped db name) name item) name front q.dropLast
  rw [pushed, hpopped.qpush_full hroom]
  exact hpopped

end Push

/-! ## All calls -/

/-- The items that the calls push into a queue, the newest first. -/
def newest (calls : List Call) (name : String) : List Item :=
  ((calls.filter fun c => c.queue = name).map Call.item).reverse

/-- How many items a queue keeps. -/
def boundOf (name : String) : ℕ :=
  if name = "notice_queue_1" ∨ name = "notice_queue_2" then 100 else 10

theorem two_le_boundOf (name : String) : 2 ≤ boundOf name := by
  unfold boundOf
  split <;> decide

/-- The queue of a user is not one of the notices. -/
theorem roomresult_ne (t : String) :
    "roomresult_" ++ t ≠ "notice_queue_1" ∧ "roomresult_" ++ t ≠ "notice_queue_2" := by
  constructor
  all_goals
    intro h
    have hhead := congrArg (fun n : String => n.toList.head?) h
    simp [String.toList_append] at hhead

theorem Call.bound_eq (c : Call) : c.bound = boundOf c.queue := by
  cases c with
  | insertRoomResult now unionid roomResult =>
      obtain ⟨h₁, h₂⟩ := roomresult_ne unionid.text
      show 10 = boundOf ("roomresult_" ++ unionid.text)
      rw [boundOf, if_neg (by simp [h₁, h₂])]
  | addNotice noticeStr level =>
      show 100 = boundOf (if Value.looseEq level (.num 1) then "notice_queue_1" else "notice_queue_2")
      split
      · rw [boundOf, if_pos (Or.inl rfl)]
      · rw [boundOf, if_pos (Or.inr rfl)]

theorem newest_append (calls : List Call) (c : Call) (name : String) :
    newest (calls ++ [c]) name =
      if c.queue = name then c.item :: newest calls name else newest calls name := by
  unfold newest
  rw [List.filter_append, List.map_append, List.reverse_append]
  split
  · rename_i h
    simp [h]
  · rename_i h
    simp [h]

/-- The queues hold the newest items, and the first has the number that is left for it. -/
def HoldsNewest (codec : Codec) (calls : List Call) (db : Ssdb.Db) : Prop :=
  ∀ name, ∃ front, Queue codec db name front ((newest calls name).take (boundOf name)) ∧
    (newest calls name ≠ [] → front + (newest calls name).length = Ssdb.qitemSeqInit + 1)

variable {codec : Codec} {w : World} {s : Store}

theorem run_append (calls : List Call) (c : Call) :
    run codec w s (calls ++ [c]) = (c.handler.run (execSsdb codec w) (run codec w s calls)).2 := by
  rw [run, List.foldl_append]
  rfl

/-- **One more call** pushes its item into its queue. -/
theorem HoldsNewest.call {calls : List Call} {db : Ssdb.Db} (h : HoldsNewest codec calls db) (c : Call)
    (hroom : (newest calls c.queue).length < capacity) :
    HoldsNewest codec (calls ++ [c]) (c.handler.run (execSsdb codec w) (s, db)).2.2 := by
  obtain ⟨front, hq, hfront⟩ := h c.queue
  have hbound : 2 ≤ c.bound := by
    rw [c.bound_eq]
    exact two_le_boundOf c.queue
  have hnil : (newest calls c.queue).take (boundOf c.queue) = [] ↔ newest calls c.queue = [] := by
    rw [List.take_eq_nil_iff]
    have := two_le_boundOf c.queue
    constructor
    · rintro (h | h)
      · omega
      · exact h
    · exact Or.inr
  have hfree : (newest calls c.queue).take (boundOf c.queue) = [] ∨ Ssdb.qitemMinSeq + 1 < front := by
    rw [hnil]
    by_cases hempty : newest calls c.queue = []
    · exact Or.inl hempty
    · refine Or.inr ?_
      have hnumber := hfront hempty
      simp only [capacity, Ssdb.qitemSeqInit, Ssdb.qitemMinSeq, Ssdb.qitemMaxSeq] at *
      omega
  obtain ⟨hpushed, hothers⟩ := pushBounded_queue (w := w) (s := s) hq hfree hbound c.item
  rw [← c.handler_eq, c.bound_eq, bounded_take (by have := two_le_boundOf c.queue; omega)] at hpushed
  rw [← c.handler_eq] at hothers
  intro name
  rw [newest_append]
  by_cases hname : c.queue = name
  · subst hname
    rw [if_pos rfl]
    refine ⟨_, hpushed, fun _ => ?_⟩
    rw [List.length_cons]
    by_cases hempty : newest calls c.queue = []
    · rw [if_pos (hnil.mpr hempty), hempty]
      rfl
    · have hnumber := hfront hempty
      have hlength := List.length_pos_of_ne_nil hempty
      rw [if_neg fun h => hempty (hnil.mp h)]
      simp only [capacity, Ssdb.qitemSeqInit, Ssdb.qitemMinSeq, Ssdb.qitemMaxSeq] at *
      omega
  · rw [if_neg hname]
    obtain ⟨front', hq', hfront'⟩ := h name
    refine ⟨front', hothers (nameBytes name) (fun h => hname (nameBytes_inj h).symm) front' _ hq', hfront'⟩

theorem run_holdsNewest {calls : List Call} (h : ∀ name, (newest calls name).length ≤ capacity) :
    HoldsNewest codec calls (run codec w s calls).2 := by
  induction calls using List.reverseRecOn with
  | nil =>
      intro name
      refine ⟨0, ?_, fun hne => absurd rfl hne⟩
      rw [show newest [] name = [] from rfl, List.take_nil]
      exact Ssdb.Db.isQueue_empty _ 0
  | append_singleton calls c ih =>
      have hless : ∀ name, (newest calls name).length ≤ capacity := by
        intro name
        have hname := h name
        rw [newest_append] at hname
        split at hname
        · rw [List.length_cons] at hname
          omega
        · exact hname
      have hroom := h c.queue
      rw [newest_append, if_pos rfl, List.length_cons] at hroom
      rw [run_append]
      exact (ih hless).call c (by omega)

/-! ## Results and notices -/

theorem newest_result (calls : List Call) (unionid : Value) :
    newest calls ("roomresult_" ++ unionid.text) = resultsOf calls unionid := by
  unfold newest resultsOf
  congr 1
  rw [← List.filterMap_eq_map', List.filterMap_filter]
  refine List.filterMap_congr fun c _ => ?_
  cases c with
  | insertRoomResult now u r =>
      have hiff : ("roomresult_" ++ u.text = "roomresult_" ++ unionid.text) ↔ u.text = unionid.text :=
        String.append_right_inj _
      by_cases hu : u.text = unionid.text
      · simp [Call.queue, Call.item, hu]
      · simp [Call.queue, hiff, hu]
  | addNotice noticeStr level =>
      have hne : (Call.addNotice noticeStr level).queue ≠ "roomresult_" ++ unionid.text := by
        obtain ⟨h₁, h₂⟩ := roomresult_ne unionid.text
        show (if Value.looseEq level (.num 1) then "notice_queue_1" else "notice_queue_2") ≠ _
        split
        · exact h₁.symm
        · exact h₂.symm
      simp [hne]

/-- The queue of a level. -/
def noticeQueue (first : Bool) : String := if first then "notice_queue_1" else "notice_queue_2"

theorem newest_notice (calls : List Call) (first : Bool) :
    newest calls (noticeQueue first) = noticesOf calls first := by
  unfold newest noticesOf
  congr 1
  rw [← List.filterMap_eq_map', List.filterMap_filter]
  refine List.filterMap_congr fun c _ => ?_
  cases c with
  | insertRoomResult now u r =>
      obtain ⟨h₁, h₂⟩ := roomresult_ne u.text
      cases first with
      | true => simp [Call.queue, noticeQueue, h₁]
      | false => simp [Call.queue, noticeQueue, h₂]
  | addNotice noticeStr level =>
      cases first with
      | true =>
          by_cases hlevel : Value.looseEq level (.num 1) = true
          · simp [Call.queue, Call.item, noticeQueue, hlevel]
          · simp [Call.queue, noticeQueue, hlevel]
      | false =>
          by_cases hlevel : Value.looseEq level (.num 1) = true
          · simp [Call.queue, noticeQueue, hlevel]
          · simp [Call.queue, Call.item, noticeQueue, hlevel]

theorem getRoomResults_answer {st : Store × Ssdb.Db} {front : ℕ} {q : List Item} {unionid : Value}
    (h : Queue codec st.2 ("roomresult_" ++ unionid.text) front q) :
    ((getRoomResults unionid 0).run (execSsdb codec w) st).1 =
      (q.take 30).map fun item => codec.decode (codec.encode item) := by
  obtain ⟨s, db⟩ := st
  show (Ssdb.procQrange db (nameBytes ("roomresult_" ++ unionid.text)) (0 : ℕ) 30).tail.map codec.decode = _
  rw [Ssdb.procQrange_eq h (by decide) (by decide), List.tail_cons, List.drop_zero, ← List.map_take,
    List.map_map]
  rfl

/-- **The histories.**  After any sequence of `insertRoomResult` and `addNotice` calls, at most
`capacity` for one queue, `getRoomResults` returns the ten newest results of a user, each
queue of notices holds the hundred newest notices of its level, and `getNoticeList` returns the ten
newest of each, all of them the newest first. -/
theorem histories_newest_first (codec : Codec) (w : World) (s : Store) (calls : List Call)
    (hresults : ∀ unionid, (resultsOf calls unionid).length ≤ capacity)
    (hnotices : ∀ first, (noticesOf calls first).length ≤ capacity) :
    let st := run codec w s calls
    let read := fun item => codec.decode (codec.encode item)
    (∀ unionid, ((getRoomResults unionid 0).run (execSsdb codec w) st).1 =
      ((resultsOf calls unionid).take 10).map read) ∧
    (∀ first, Ssdb.queueItems st.2 (nameBytes (noticeQueue first)) =
      ((noticesOf calls first).take 100).map codec.encode) ∧
    (getNoticeList.run (execSsdb codec w) st).1 =
      [("level_1", ((noticesOf calls true).take 10).map read),
       ("level_2", ((noticesOf calls false).take 10).map read)] := by
  intro st read
  -- a queue that nobody pushes to is short as well
  have hlength : ∀ name, (newest calls name).length ≤ capacity := by
    intro name
    by_cases hname : ∃ c ∈ calls, c.queue = name
    · obtain ⟨c, -, rfl⟩ := hname
      cases c with
      | insertRoomResult now u r =>
          have hu := hresults u
          rw [← newest_result] at hu
          exact hu
      | addNotice noticeStr level =>
          have hlevel := hnotices (Value.looseEq level (.num 1))
          rw [← newest_notice] at hlevel
          exact hlevel
    · have hnil : newest calls name = [] := by
        unfold newest
        rw [List.reverse_eq_nil_iff, List.map_eq_nil_iff, List.filter_eq_nil_iff]
        intro c hc hq
        exact hname ⟨c, hc, by simpa using hq⟩
      rw [hnil]
      exact Nat.zero_le _
  have hholds : HoldsNewest codec calls st.2 := run_holdsNewest hlength
  refine ⟨fun unionid => ?_, fun first => ?_, ?_⟩
  · obtain ⟨front, hq, -⟩ := hholds ("roomresult_" ++ unionid.text)
    obtain ⟨h₁, h₂⟩ := roomresult_ne unionid.text
    -- the queue of room results of a user is none of the two of notices
    have hbound : boundOf ("roomresult_" ++ unionid.text) = 10 := by
      rw [boundOf, if_neg (by simp [h₁, h₂])]
    rw [newest_result, hbound] at hq
    have hanswer := getRoomResults_answer (w := w) hq
    rw [List.take_take] at hanswer
    exact hanswer
  · obtain ⟨front, hq, -⟩ := hholds (noticeQueue first)
    have hbound : boundOf (noticeQueue first) = 100 := by cases first <;> rfl
    rw [newest_notice, hbound] at hq
    exact Ssdb.Db.IsQueue.queueItems_eq hq
  · -- both levels are read alike
    have hlevel : ∀ first, (Ssdb.procQrange st.2 (nameBytes (noticeQueue first)) (0 : ℕ) 10).tail.map
        codec.decode = ((noticesOf calls first).take 10).map read := by
      intro first
      obtain ⟨front, hq, -⟩ := hholds (noticeQueue first)
      have hbound : boundOf (noticeQueue first) = 100 := by cases first <;> rfl
      rw [newest_notice, hbound] at hq
      rw [Ssdb.procQrange_eq hq (by decide) (by decide), List.tail_cons, List.drop_zero, ← List.map_take,
        List.map_map, List.take_take]
      rfl
    have h₁ := hlevel true
    have h₂ := hlevel false
    show [("level_1", _), ("level_2", _)] = _
    rw [← h₁, ← h₂]
    rfl

/-- A result of the user `a`, as a text and read again. -/
def sampleResult : Item := .roomResult ⟨[], .num 1⟩ (Calendar.dateTime 1600000000)

/-- A codec that knows one room result. -/
def sampleCodec : Codec where
  encode := fun _ => Ssdb.ascii "\x7b\"history\":[],\"coinType\":1,\"t\":\"2020-09-13 20:26:40\"\x7d"
  decode := fun _ => sampleResult

/-- A call that pushes this room result. -/
def sampleCall : Call := .insertRoomResult 1600000000 (.str "a") ⟨[], .num 1⟩

/-- After two results both are returned. -/
theorem histories_newest_first_sample :
    ((getRoomResults (.str "a") 0).run (execSsdb sampleCodec World.plain)
      (run sampleCodec World.plain Store.empty [sampleCall, sampleCall])).1 =
      [sampleResult, sampleResult] := by
  rw [(histories_newest_first sampleCodec World.plain Store.empty [sampleCall, sampleCall] ?_ ?_).1]
  · rfl
  · intro unionid
    refine le_trans ?_ (show 2 ≤ capacity by decide)
    rw [resultsOf, List.length_reverse]
    exact List.length_filterMap_le _ _
  · intro first
    refine le_trans ?_ (show 2 ≤ capacity by decide)
    rw [noticesOf, List.length_reverse]
    exact List.length_filterMap_le _ _

theorem newest_replicate (n : ℕ) (c : Call) (name : String) :
    newest (List.replicate n c) name = if c.queue = name then List.replicate n c.item else [] := by
  unfold newest
  rw [List.filter_replicate]
  by_cases h : c.queue = name
  · simp [h]
  · simp [h]

/-- **An item is lost when the numbers are used up.**  After `capacity` results of one user the next
one is not stored, but the oldest is removed: nine results are returned. -/
theorem history_loses_item :
    ((getRoomResults (.str "a") 0).run (execSsdb sampleCodec World.plain)
      (run sampleCodec World.plain Store.empty (List.replicate (capacity + 1) sampleCall))).1.length = 9 ∧
    ((resultsOf (List.replicate (capacity + 1) sampleCall) (.str "a")).take 10).length = 10 := by
  have hqueue : sampleCall.queue = "roomresult_" ++ (Value.str "a").text := rfl
  have hten : 10 ≤ capacity := by decide
  generalize hcap : capacity = n at *
  constructor
  · have hholds : HoldsNewest sampleCodec (List.replicate n sampleCall)
        (run sampleCodec World.plain Store.empty (List.replicate n sampleCall)).2 := by
      apply run_holdsNewest
      intro name
      rw [newest_replicate, hcap]
      split
      · rw [List.length_replicate]
      · exact Nat.zero_le n
    obtain ⟨front, hq, hfront⟩ := hholds sampleCall.queue
    rw [newest_replicate, if_pos rfl] at hq hfront
    rw [← sampleCall.bound_eq] at hq
    have hnumber := hfront (List.ne_nil_of_length_pos (by rw [List.length_replicate]; omega))
    have hlast : front = Ssdb.qitemMinSeq + 1 := by
      rw [List.length_replicate] at hnumber
      simp only [capacity, Ssdb.qitemSeqInit, Ssdb.qitemMinSeq, Ssdb.qitemMaxSeq] at *
      omega
    have hfull : sampleCall.bound ≤
        ((List.replicate n sampleCall.item).take sampleCall.bound).length := by
      rw [List.length_take, List.length_replicate]
      exact le_min le_rfl hten
    rw [List.replicate_succ', run_append]
    generalize run sampleCodec World.plain Store.empty (List.replicate n sampleCall) = st at *
    obtain ⟨s, db⟩ := st
    have hafter := pushBounded_exhausted (w := World.plain) (s := s) hq (by decide) hfull hlast
      sampleCall.item
    rw [← sampleCall.handler_eq, hqueue] at hafter
    rw [getRoomResults_answer hafter, List.length_map, List.length_take, List.length_dropLast,
      List.length_take, List.length_replicate]
    show min 30 (min 10 n - 1) = 9
    omega
  · rw [← newest_result, newest_replicate, if_pos hqueue, List.length_take, List.length_replicate]
    omega

end Histories
