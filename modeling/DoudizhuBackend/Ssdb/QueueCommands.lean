/-
# The queue commands are operations on lists

`ssdb-master/src/proc_queue.cpp`.  The commands push several items, remove several items, trim, clear
and replace by index, all of them with the operations of `Ssdb.Queue`, one transaction after another.

Whatever commands have been run, each of them does to its queue what `QueueCommand.spec` does to a
list, but for a trim that counts beyond the `int` it counts in (`queue_is_list`).
-/
import DoudizhuBackend.Ssdb.Iterator
import DoudizhuBackend.Ssdb.Queue

namespace Ssdb

/-! ## Commands -/

/-- `proc_qpush_func`: the items are pushed one after another, up to the first that fails. -/
def procQpush (db : Db) (name : Bytes) (e : QueueEnd) : ℤ → List Bytes → Db × List Bytes
  | size, [] => (db, replyInt 0 size)
  | _, item :: items =>
      let (size, ws) := qpush db name item e .sync
      if size = -1 then (db.apply ws, [ascii "error"])
      else procQpush (db.apply ws) name e size items

/-- Up to `n` removals, which end at the first that finds nothing: the loops of `proc_qpop_func` and
`proc_qclear`.  The items removed, and the result of the last call. -/
def popLoop (name : Bytes) (e : QueueEnd) : ℕ → Db → Db × List Bytes × ℤ
  | 0, db => (db, [], 1)
  | n + 1, db =>
      let (ret, item, ws) := qpop db name e .sync
      if ret ≤ 0 then (db.apply ws, [], ret)
      else
        let (db', items, ret') := popLoop name e n (db.apply ws)
        (db', item.toList ++ items, ret')

/-- `proc_qpop_func`. -/
def procQpop (db : Db) (name : Bytes) (e : QueueEnd) (size : ℕ) : Db × List Bytes :=
  if size = 1 then
    let (ret, item, ws) := qpop db name e .sync
    (db.apply ws, replyGet ret item)
  else
    let (db', items, _) := popLoop name e size db
    (db', ascii "ok" :: items)

/-- The `uint64_t` that is left of a number. -/
def uint64 (n : ℤ) : ℕ := (n % 2 ^ 64).toNat

/-- The loop of `proc_qtrim_func`.  The counter is an `int` that goes on modulo `2^32`, and it is compared
with the size as a `uint64_t`. -/
def trimLoop (name : Bytes) (e : QueueEnd) (size : ℕ) : ℕ → Db → ℤ → Db × ℤ
  | 0, db, count => (db, count)
  | fuel + 1, db, count =>
      if uint64 count < size then
        let (ret, _, ws) := qpop db name e .sync
        if ret ≤ 0 then (db.apply ws, count)
        else trimLoop name e size fuel (db.apply ws) ((count + 1).bmod (2 ^ 32))
      else (db, count)

/-- There are never more turns: before an `int` comes back to 0 it is -1, which as a `uint64_t` is not below
any size. -/
@[irreducible] def trimTurns : ℕ := 2 ^ 32

theorem trimTurns_eq : trimTurns = 2 ^ 32 := by rw [trimTurns]

/-- `proc_qtrim_func`. -/
def procQtrim (db : Db) (name : Bytes) (e : QueueEnd) (size : ℕ) : Db × List Bytes :=
  let out := trimLoop name e size trimTurns db 0
  (out.1, replyInt 0 out.2)

/-- `proc_qclear`: removals without a bound.  The queue has `qsize` items, and one more turn finds
it empty; after -1 there is no reply. -/
def procQclear (db : Db) (name : Bytes) : Db × List Bytes :=
  let (db', items, ret) := popLoop name .front ((qsize db name).toNat + 1) db
  (db', if ret = -1 then [] else replyInt 0 items.length)

/-- `proc_qset`. -/
def procQset (db : Db) (name : Bytes) (index : ℤ) (item : Bytes) : Db × List Bytes :=
  let (ret, ws) := qset db name index item .sync
  (db.apply ws, if ret = -1 ∨ ret = 0 then [ascii "error", ascii "index out of range"]
    else [ascii "ok"])

/-- The commands; the numbers are those that `Uint64()` and `Int64()` read from the request. -/
inductive QueueCommand where
  | qpushFront (name item : Bytes) (items : List Bytes)
  | qpushBack (name item : Bytes) (items : List Bytes)
  | qpopFront (name : Bytes) (size : ℕ)
  | qpopBack (name : Bytes) (size : ℕ)
  | qset (name : Bytes) (index : ℤ) (item : Bytes)
  | qtrimFront (name : Bytes) (size : ℕ)
  | qtrimBack (name : Bytes) (size : ℕ)
  | qclear (name : Bytes)

namespace QueueCommand

/-- The database and the reply after a command. -/
def run (db : Db) : QueueCommand → Db × List Bytes
  | qpushFront name item items => procQpush db name .front 0 (item :: items)
  | qpushBack name item items => procQpush db name .back 0 (item :: items)
  | qpopFront name size => procQpop db name .front size
  | qpopBack name size => procQpop db name .back size
  | qset name index item => procQset db name index item
  | qtrimFront name size => procQtrim db name .front size
  | qtrimBack name size => procQtrim db name .back size
  | qclear name => procQclear db name

/-- The store after a command. -/
def exec (db : Db) (c : QueueCommand) : Db := (c.run db).1

end QueueCommand

/-! ## Commands on lists -/

/-- The `n` items next to an end, from the end on. -/
def QueueEnd.takeMany (e : QueueEnd) (n : ℕ) (items : List Bytes) : List Bytes :=
  match e with
  | .front => items.take n
  | .back => items.reverse.take n

/-- What is left without the `n` items next to an end. -/
def QueueEnd.dropMany (e : QueueEnd) (n : ℕ) (items : List Bytes) : List Bytes :=
  match e with
  | .front => items.drop n
  | .back => items.take (items.length - n)

/-- Several items pushed at an end, one after another. -/
def QueueEnd.pushMany (e : QueueEnd) (new items : List Bytes) : List Bytes :=
  match e with
  | .front => new.reverse ++ items
  | .back => items ++ new

namespace QueueCommand

/-- The queue that a command is about. -/
def name : QueueCommand → Bytes
  | qpushFront name _ _ => name
  | qpushBack name _ _ => name
  | qpopFront name _ => name
  | qpopBack name _ => name
  | qset name _ _ => name
  | qtrimFront name _ => name
  | qtrimBack name _ => name
  | qclear name => name

/-- A push of several items into a list, `room` of which find a place. -/
def specPush (e : QueueEnd) (new : List Bytes) (room : ℕ) (items : List Bytes) :
    List Bytes × List Bytes :=
  (e.pushMany (new.take room) items,
    if new.length ≤ room then replyInt 0 (items.length + new.length) else [ascii "error"])

/-- A removal of up to `size` items. -/
def specPop (e : QueueEnd) (size : ℕ) (items : List Bytes) : List Bytes × List Bytes :=
  (e.dropMany size items,
    if size = 1 then
      match e.peek items with
      | none => [ascii "not_found"]
      | some item => [ascii "ok", item]
    else ascii "ok" :: e.takeMany size items)

/-- A removal of up to `size` items that only replies their number. -/
def specTrim (e : QueueEnd) (size : ℕ) (items : List Bytes) : List Bytes × List Bytes :=
  (e.dropMany size items, replyInt 0 (min size items.length : ℕ))

/-- A new item in the place of another; a negative index counts from the back. -/
def specSet (index : ℤ) (item : Bytes) (items : List Bytes) : List Bytes × List Bytes :=
  if -(items.length : ℤ) ≤ index ∧ index < items.length
  then (items.set (indexPosition items index) item, [ascii "ok"])
  else (items, [ascii "error", ascii "index out of range"])

/-- **The commands on lists**: the list after a command, and the reply. -/
def spec (c : QueueCommand) (room : QueueEnd → ℕ) (items : List Bytes) : List Bytes × List Bytes :=
  match c with
  | qpushFront _ item new => specPush .front (item :: new) (room .front) items
  | qpushBack _ item new => specPush .back (item :: new) (room .back) items
  | qpopFront _ size => specPop .front size items
  | qpopBack _ size => specPop .back size items
  | qset _ index item => specSet index item items
  | qtrimFront _ size => specTrim .front size items
  | qtrimBack _ size => specTrim .back size items
  | qclear _ => ([], replyInt 0 items.length)

/-- An `int` counts the items that the command removes. -/
def Counts (c : QueueCommand) (items : List Bytes) : Prop :=
  match c with
  | qtrimFront _ size => size < 2 ^ 31 ∨ items.length < 2 ^ 31
  | qtrimBack _ size => size < 2 ^ 31 ∨ items.length < 2 ^ 31
  | _ => True

end QueueCommand

namespace QueueEnd

theorem length_takeMany (e : QueueEnd) (n : ℕ) (items : List Bytes) :
    (e.takeMany n items).length = min n items.length := by
  cases e <;> simp [takeMany]

theorem takeMany_succ (e : QueueEnd) (n : ℕ) {items : List Bytes} (hne : items ≠ []) :
    e.takeMany (n + 1) items = (e.peek items).toList ++ e.takeMany n (e.rest items) := by
  cases e with
  | front =>
      cases items with
      | nil => exact absurd rfl hne
      | cons item items => rfl
  | back =>
      obtain ⟨init, last, rfl⟩ := (List.eq_nil_or_concat' items).resolve_left hne
      simp [takeMany, peek, rest]

theorem dropMany_succ (e : QueueEnd) (n : ℕ) (items : List Bytes) :
    e.dropMany (n + 1) items = e.dropMany n (e.rest items) := by
  cases e with
  | front => simp [dropMany, rest]
  | back =>
      simp only [dropMany, rest, List.dropLast_eq_take, List.take_take, List.length_take]
      congr 1
      omega

theorem pushMany_cons (e : QueueEnd) (item : Bytes) (new items : List Bytes) :
    e.pushMany (item :: new) items = e.pushMany new (e.push item items) := by
  cases e <;> simp [pushMany, push]

theorem length_push (e : QueueEnd) (item : Bytes) (items : List Bytes) :
    (e.push item items).length = items.length + 1 := by
  cases e <;> simp [push]

theorem dropMany_all (e : QueueEnd) {n : ℕ} {items : List Bytes} (h : items.length ≤ n) :
    e.dropMany n items = [] := by
  cases e <;> simp [dropMany, h]

theorem length_rest (e : QueueEnd) (items : List Bytes) : (e.rest items).length = items.length - 1 := by
  cases e <;> simp [rest]

end QueueEnd

/-! ## The loops of the commands -/

/-- What a command on the queue `name` leaves of the others. -/
def KeepsOthers (name : Bytes) (db db' : Db) : Prop :=
  ∀ name' ≠ name, ∀ front items, db.IsQueue name' front items → db'.IsQueue name' front items

theorem keepsOthers_apply {db : Db} {name : Bytes} {ws : List Write}
    (hws : ∀ w ∈ ws, w.OnKeys (IsQueueKey name)) : KeepsOthers name db (db.apply ws) :=
  fun _ hne _ _ h => h.apply_other hne hws

theorem KeepsOthers.refl (name : Bytes) (db : Db) : KeepsOthers name db db := fun _ _ _ _ h => h

theorem KeepsOthers.trans {name : Bytes} {db db' db'' : Db} (h : KeepsOthers name db db')
    (h' : KeepsOthers name db' db'') : KeepsOthers name db db'' :=
  fun name' hne front items hq => h' name' hne front items (h name' hne front items hq)

/-- The loop of removals. -/
theorem popLoop_spec (name : Bytes) (e : QueueEnd) (n : ℕ) : ∀ {db : Db} {front : ℕ}
    {items : List Bytes}, db.IsQueue name front items →
      (∃ front', Db.IsQueue (popLoop name e n db).1 name front' (e.dropMany n items)) ∧
        (popLoop name e n db).2.1 = e.takeMany n items ∧ (popLoop name e n db).2.2 ≠ -1 ∧
          KeepsOthers name db (popLoop name e n db).1 := by
  induction n with
  | zero =>
      intro db front items h
      refine ⟨⟨front, ?_⟩, ?_, ?_, .refl name db⟩
      · cases e <;> simpa [popLoop, QueueEnd.dropMany] using h
      · cases e <;> simp [popLoop, QueueEnd.takeMany]
      · simp [popLoop]
  | succ n ih =>
      intro db front items h
      rcases eq_or_ne items [] with rfl | hne
      · have hloop : popLoop name e (n + 1) db = (db, [], 0) := by
          simp only [popLoop, h.qpop_nil]
          rfl
        rw [hloop]
        refine ⟨⟨front, ?_⟩, ?_, by simp, .refl name db⟩
        · cases e <;> simpa [QueueEnd.dropMany] using h
        · cases e <;> simp [QueueEnd.takeMany]
      · obtain ⟨hret, hitem, hq⟩ := h.qpop_spec e hne .sync
        obtain ⟨hrest, htaken, hlast, hothers⟩ := ih hq
        have hpositive : ¬ (qpop db name e .sync).1 ≤ 0 := by
          rw [hret]
          decide
        simp only [popLoop, if_neg hpositive]
        refine ⟨?_, ?_, hlast, (keepsOthers_apply (onQueue_qpop db name e .sync)).trans hothers⟩
        · rw [QueueEnd.dropMany_succ]
          exact hrest
        · rw [htaken, hitem, e.takeMany_succ n hne]

/-- The loop of a trim, however it counts, keeps the queues lists and touches one of them. -/
theorem trimLoop_keeps (name : Bytes) (e : QueueEnd) (size fuel : ℕ) : ∀ {db : Db} {front : ℕ}
    {items : List Bytes} (count : ℤ), db.IsQueue name front items →
      (∃ front' items', Db.IsQueue (trimLoop name e size fuel db count).1 name front' items') ∧
        KeepsOthers name db (trimLoop name e size fuel db count).1 := by
  induction fuel with
  | zero =>
      intro db front items count h
      exact ⟨⟨front, items, h⟩, .refl name db⟩
  | succ fuel ih =>
      intro db front items count h
      rw [trimLoop]
      split
      · rcases eq_or_ne items [] with rfl | hne
        · rw [h.qpop_nil]
          exact ⟨⟨front, [], h⟩, .refl name db⟩
        · obtain ⟨hret, -, hq⟩ := h.qpop_spec e hne .sync
          obtain ⟨hqueue, hothers⟩ := ih ((count + 1).bmod (2 ^ 32)) hq
          have hpositive : ¬ (qpop db name e .sync).1 ≤ 0 := by
            rw [hret]
            decide
          simp only [if_neg hpositive]
          exact ⟨hqueue, (keepsOthers_apply (onQueue_qpop db name e .sync)).trans hothers⟩
      · exact ⟨⟨front, items, h⟩, .refl name db⟩

/-- What a trim replies is an `int`. -/
theorem trimLoop_lt (name : Bytes) (e : QueueEnd) (size fuel : ℕ) : ∀ (db : Db) (count : ℤ),
    count < 2 ^ 31 → (trimLoop name e size fuel db count).2 < 2 ^ 31 := by
  induction fuel with
  | zero => exact fun _ _ h => h
  | succ fuel ih =>
      intro db count h
      rw [trimLoop]
      split
      · dsimp only
        split
        · exact h
        · apply ih
          have hlt : (count + 1).bmod (2 ^ 32) < (((2 ^ 32 : ℕ) : ℤ) + 1) / 2 := Int.bmod_lt (by decide)
          omega
      · exact h

/-- **The loop of a trim** that has counted `n` items: it ends with the size, with the last item, or when
the counter becomes negative. -/
theorem trimLoop_spec (name : Bytes) (e : QueueEnd) (size fuel : ℕ) : ∀ {db : Db} {front : ℕ}
    {items : List Bytes} {n : ℕ}, db.IsQueue name front items → n ≤ min size (2 ^ 31) →
      (size ≤ 2 ^ 64 - 2 ^ 31 ∨ n + items.length < 2 ^ 31) →
      min (min size (2 ^ 31) - n) items.length < fuel →
      (∃ front', Db.IsQueue (trimLoop name e size fuel db (toInt n)).1 name front'
        (e.dropMany (min size (2 ^ 31) - n) items)) ∧
        (trimLoop name e size fuel db (toInt n)).2 =
          toInt (n + min (min size (2 ^ 31) - n) items.length) := by
  induction fuel with
  | zero => exact fun _ _ _ hfuel => absurd hfuel (Nat.not_lt_zero _)
  | succ fuel ih =>
      intro db front items n h hn hsize hfuel
      rcases eq_or_ne items [] with rfl | hne
      · -- nothing is left, whatever the comparison says
        have hloop : trimLoop name e size (fuel + 1) db (toInt n) = (db, toInt n) := by
          simp only [trimLoop, h.qpop_nil]
          split <;> rfl
        rw [hloop]
        refine ⟨⟨front, ?_⟩, by simp⟩
        cases e <;> simpa [QueueEnd.dropMany] using h
      · have hpos : 0 < items.length := List.length_pos_iff.mpr hne
        rcases hn.lt_or_eq with hlt | heq
        · -- one more item
          have hint : toInt n = n := toInt_of_lt (by omega)
          have hnext : (toInt n + 1).bmod (2 ^ 32) = toInt (n + 1) := by
            have hcast : (n : ℤ) + 1 = (n + 1 : ℕ) := by push_cast; rfl
            rw [hint, hcast]
            rfl
          have hgoes : uint64 (toInt n) < size := by
            rw [hint, uint64, Int.emod_eq_of_lt (by omega) (by omega), Int.toNat_natCast]
            omega
          obtain ⟨hret, -, hq⟩ := h.qpop_spec e hne .sync
          have hpositive : ¬ (qpop db name e .sync).1 ≤ 0 := by
            rw [hret]
            decide
          have hrest := e.length_rest items
          have hsucc : min size (2 ^ 31) - n = min size (2 ^ 31) - (n + 1) + 1 := by omega
          obtain ⟨hlist, hcount⟩ := ih hq (n := n + 1) (by omega) (by omega) (by omega)
          have hloop : trimLoop name e size (fuel + 1) db (toInt n) =
              trimLoop name e size fuel (db.apply (qpop db name e .sync).2.2) (toInt (n + 1)) := by
            rw [trimLoop, if_pos hgoes, ← hnext]
            exact if_neg hpositive
          rw [hloop, hsucc, QueueEnd.dropMany_succ]
          have htotal : n + 1 + min (min size (2 ^ 31) - (n + 1)) (e.rest items).length =
              n + min (min size (2 ^ 31) - (n + 1) + 1) items.length := by omega
          rw [← htotal]
          exact ⟨hlist, hcount⟩
        · -- the counter stands at the size, or is negative
          have hstops : ¬ uint64 (toInt n) < size := by
            rcases Nat.lt_or_ge n (2 ^ 31) with hsmall | hbig
            · rw [toInt_of_lt hsmall, uint64, Int.emod_eq_of_lt (by omega) (by omega), Int.toNat_natCast]
              omega
            · obtain rfl : n = 2 ^ 31 := by omega
              have hnegative : uint64 (toInt (2 ^ 31)) = 2 ^ 64 - 2 ^ 31 := by decide
              omega
          have hzero : min size (2 ^ 31) - n = 0 := by omega
          have hloop : trimLoop name e size (fuel + 1) db (toInt n) = (db, toInt n) := by
            rw [trimLoop, if_neg hstops]
          rw [hloop, hzero]
          refine ⟨⟨front, ?_⟩, by simp⟩
          cases e <;> simpa [QueueEnd.dropMany] using h

/-- The loop of pushes. -/
theorem procQpush_spec (name : Bytes) (e : QueueEnd) (new : List Bytes) : ∀ {db : Db} {front : ℕ}
    {items : List Bytes} (size : ℤ), db.IsQueue name front items → (new = [] → size = items.length) →
      (∃ front', Db.IsQueue (procQpush db name e size new).1 name front'
        (e.pushMany (new.take (room db name e)) items)) ∧
        (procQpush db name e size new).2 = (QueueCommand.specPush e new (room db name e) items).2 ∧
          KeepsOthers name db (procQpush db name e size new).1 := by
  induction new with
  | nil =>
      intro db front items size h hsize
      refine ⟨⟨front, ?_⟩, ?_, .refl name db⟩
      · cases e <;> simpa [procQpush, QueueEnd.pushMany] using h
      · simp [procQpush, QueueCommand.specPush, hsize rfl]
  | cons item new ih =>
      intro db front items size h _
      -- the queue is full at its end, and the loop stops at the first item refused
      rcases Nat.eq_zero_or_pos (room db name e) with hfull | hroom
      · have hpush : procQpush db name e size (item :: new) = (db, [ascii "error"]) := by
          simp only [procQpush, h.qpush_full hfull]
          rfl
        rw [hpush, hfull]
        refine ⟨⟨front, ?_⟩, rfl, .refl name db⟩
        cases e <;> simpa [QueueEnd.pushMany] using h
      · -- there is room: this item goes in, and the rest find one place less
        obtain ⟨hsize, hq⟩ := h.qpush_spec hroom item .sync
        have hleft := h.room_qpush hroom item .sync
        have hlength := e.length_push item items
        obtain ⟨hrest, hreply, hothers⟩ := ih (qpush db name item e .sync).1 hq (by
          intro _
          rw [hsize, hlength]
          rfl)
        have hok : ¬ (qpush db name item e .sync).1 = -1 := by omega
        simp only [procQpush, if_neg hok]
        refine ⟨?_, ?_, (keepsOthers_apply (onQueue_qpush db name item e .sync)).trans hothers⟩
        · have htake : (item :: new).take (room db name e) = item :: new.take (room db name e - 1) := by
            obtain ⟨r, hr⟩ := Nat.exists_eq_succ_of_ne_zero hroom.ne'
            rw [hr]
            rfl
          rw [htake, QueueEnd.pushMany_cons, ← hleft]
          exact hrest
        · rw [hreply, hleft]
          simp only [QueueCommand.specPush, List.length_cons, hlength]
          have hiff : new.length ≤ room db name e - 1 ↔ new.length + 1 ≤ room db name e := by omega
          simp only [hiff]
          split_ifs
          · congr 1
            push_cast
            ring
          · rfl

/-! ## Queues are lists -/

/-- What a command does to the queue `name`: the list and the reply become those of `spec`, and the
other queues stay. -/
structure Does (name : Bytes) (db : Db) (out : Db × List Bytes) (spec : List Bytes × List Bytes) :
    Prop where
  list : ∃ front, out.1.IsQueue name front spec.1
  reply : out.2 = spec.2
  others : KeepsOthers name db out.1

namespace Db.IsQueue

variable {db : Db} {name : Bytes} {front : ℕ} {items : List Bytes}

theorem does_qpop (h : db.IsQueue name front items) (e : QueueEnd) (size : ℕ) :
    Does name db (procQpop db name e size) (QueueCommand.specPop e size items) := by
  by_cases hone : size = 1
  · subst hone
    simp only [procQpop, QueueCommand.specPop, if_true]
    rcases eq_or_ne items [] with rfl | hne
    · rw [h.qpop_nil]
      refine ⟨⟨front, ?_⟩, ?_, .refl _ db⟩
      · cases e <;> simpa [QueueEnd.dropMany] using h
      · cases e <;> rfl
    · obtain ⟨hret, hitem, hq⟩ := h.qpop_spec e hne .sync
      have hdrop : e.dropMany 1 items = e.rest items := by
        rw [QueueEnd.dropMany_succ]
        cases e <;> simp [QueueEnd.dropMany]
      obtain ⟨item, hpeek⟩ := e.exists_peek hne
      refine ⟨⟨frontAfterPop front e, ?_⟩, ?_, keepsOthers_apply (onQueue_qpop db _ e .sync)⟩
      · rw [hdrop]
        exact hq
      · rw [hret, hitem, hpeek]
        rfl
  · obtain ⟨hrest, htaken, -, hothers⟩ := popLoop_spec name e size h
    simp only [procQpop, QueueCommand.specPop, if_neg hone]
    exact ⟨hrest, by rw [htaken], hothers⟩

/-- A trim of at most `2^31 - 1` items. -/
theorem does_qtrim (h : db.IsQueue name front items) (e : QueueEnd) {size : ℕ}
    (hcounts : size < 2 ^ 31 ∨ items.length < 2 ^ 31) :
    Does name db (procQtrim db name e size) (QueueCommand.specTrim e size items) := by
  have hturns := trimTurns_eq
  obtain ⟨hlist, hcount⟩ := trimLoop_spec name e size trimTurns h (n := 0) (by omega) (by omega) (by omega)
  obtain ⟨-, hothers⟩ := trimLoop_keeps name e size trimTurns 0 h
  have hzero : toInt 0 = 0 := toInt_of_lt (by decide)
  rw [hzero] at hlist hcount
  refine ⟨?_, ?_, hothers⟩
  · simp only [procQtrim, QueueCommand.specTrim]
    have hdrop : e.dropMany (min size (2 ^ 31) - 0) items = e.dropMany size items := by
      rcases hcounts with hsize | hlength
      · rw [Nat.min_eq_left hsize.le, Nat.sub_zero]
      · rcases Nat.lt_or_ge size (2 ^ 31) with hsize | hsize
        · rw [Nat.min_eq_left hsize.le, Nat.sub_zero]
        · rw [Nat.min_eq_right hsize, Nat.sub_zero, e.dropMany_all hlength.le,
            e.dropMany_all (hlength.le.trans hsize)]
    rw [← hdrop]
    exact hlist
  · simp only [procQtrim, QueueCommand.specTrim, hcount]
    rw [toInt_of_lt (by omega)]
    congr 2
    omega

/-- **A trim counts right** exactly if it removes at most `2^31 - 1` items: an `int` is never as large as the
number of the items that it should remove. -/
theorem does_qtrim_iff (h : db.IsQueue name front items) (e : QueueEnd) (size : ℕ) :
    ((∃ front', Db.IsQueue (procQtrim db name e size).1 name front' (QueueCommand.specTrim e size items).1) ∧
        (procQtrim db name e size).2 = (QueueCommand.specTrim e size items).2) ↔
      size < 2 ^ 31 ∨ items.length < 2 ^ 31 := by
  constructor
  · rintro ⟨-, hreply⟩
    have hlt := trimLoop_lt name e size trimTurns db 0 (by decide)
    have hstr : str (trimLoop name e size trimTurns db 0).2 = str (min size items.length : ℕ) := by
      have hwords : [ascii "ok", str (trimLoop name e size trimTurns db 0).2] =
          [ascii "ok", str (min size items.length : ℕ)] := hreply
      simpa using hwords
    have hcount := str_injective hstr
    omega
  · intro hcounts
    have hdoes := h.does_qtrim e hcounts
    exact ⟨hdoes.list, hdoes.reply⟩

theorem does_qpush (h : db.IsQueue name front items) (e : QueueEnd) (item : Bytes)
    (new : List Bytes) :
    Does name db (procQpush db name e 0 (item :: new))
      (QueueCommand.specPush e (item :: new) (room db name e) items) := by
  obtain ⟨hlist, hreply, hothers⟩ := procQpush_spec name e (item :: new) 0 h (by simp)
  exact ⟨hlist, hreply, hothers⟩

theorem does_qset (h : db.IsQueue name front items) (index : ℤ) (item : Bytes) :
    Does name db (procQset db name index item) (QueueCommand.specSet index item items) := by
  have hothers : KeepsOthers name db (db.apply (qset db name index item .sync).2) :=
    keepsOthers_apply (onQueue_qset db name index item .sync)
  by_cases hindex : -(items.length : ℤ) ≤ index ∧ index < items.length
  · rw [QueueCommand.specSet, if_pos hindex]
    refine ⟨⟨front, h.qset_spec hindex item .sync⟩, ?_, hothers⟩
    simp only [procQset, h.qset_eq hindex]
    rfl
  · rw [QueueCommand.specSet, if_neg hindex]
    refine ⟨⟨front, ?_⟩, ?_, hothers⟩
    · simp only [procQset, h.qset_out hindex]
      exact h
    · simp only [procQset, h.qset_out hindex]
      rfl

/-- The loop of `proc_qclear` ends with an empty queue. -/
theorem does_qclear (h : db.IsQueue name front items) :
    Does name db (procQclear db name) ([], replyInt 0 items.length) := by
  have hsize : (qsize db name).toNat = items.length := by
    rw [h.qsize_eq]
    omega
  obtain ⟨hrest, htaken, hret, hothers⟩ := popLoop_spec name .front (items.length + 1) h
  have hdrop : QueueEnd.front.dropMany (items.length + 1) items = [] := by simp [QueueEnd.dropMany]
  rw [hdrop] at hrest
  simp only [procQclear, hsize, if_neg hret]
  refine ⟨hrest, ?_, hothers⟩
  rw [htaken, QueueEnd.length_takeMany, Nat.min_eq_right (by omega)]

end Db.IsQueue

/-- A command that counts right does to its queue what it does to a list, and nothing to the others. -/
theorem QueueCommand.does {db : Db} (c : QueueCommand) {front : ℕ} {items : List Bytes}
    (h : db.IsQueue c.name front items) (hcounts : c.Counts items) :
    Does c.name db (c.run db) (c.spec (room db c.name) items) := by
  cases c with
  | qpushFront name item new => exact h.does_qpush .front item new
  | qpushBack name item new => exact h.does_qpush .back item new
  | qpopFront name size => exact h.does_qpop .front size
  | qpopBack name size => exact h.does_qpop .back size
  | qset name index item => exact h.does_qset index item
  | qtrimFront name size => exact h.does_qtrim .front hcounts
  | qtrimBack name size => exact h.does_qtrim .back hcounts
  | qclear name => exact h.does_qclear

/-- The list and the reply are right exactly if the command counts right. -/
theorem QueueCommand.does_iff {db : Db} (c : QueueCommand) {front : ℕ} {items : List Bytes}
    (h : db.IsQueue c.name front items) :
    ((∃ front', Db.IsQueue (c.run db).1 c.name front' (c.spec (room db c.name) items).1) ∧
      (c.run db).2 = (c.spec (room db c.name) items).2) ↔ c.Counts items := by
  by_cases hcounts : c.Counts items
  · have hdoes := c.does h hcounts
    exact iff_of_true ⟨hdoes.list, hdoes.reply⟩ hcounts
  · cases c with
    | qtrimFront name size => exact h.does_qtrim_iff .front size
    | qtrimBack name size => exact h.does_qtrim_iff .back size
    | _ => exact absurd trivial hcounts

/-- Every queue of the database is a list. -/
def Db.AllQueues (db : Db) : Prop := ∀ name, ∃ front items, db.IsQueue name front items

/-- However it counts, a command leaves lists, and the queues alone that it does not name. -/
theorem QueueCommand.keeps {db : Db} (c : QueueCommand) {front : ℕ} {items : List Bytes}
    (h : db.IsQueue c.name front items) :
    (∃ front' items', Db.IsQueue (c.exec db) c.name front' items') ∧ KeepsOthers c.name db (c.exec db) := by
  by_cases hcounts : c.Counts items
  · have hdoes := c.does h hcounts
    obtain ⟨front', hq⟩ := hdoes.list
    exact ⟨⟨front', _, hq⟩, hdoes.others⟩
  · cases c with
    | qtrimFront name size => exact trimLoop_keeps name .front size trimTurns 0 h
    | qtrimBack name size => exact trimLoop_keeps name .back size trimTurns 0 h
    | _ => exact absurd trivial hcounts

theorem QueueCommand.exec_allQueues {db : Db} (h : db.AllQueues) (c : QueueCommand) :
    Db.AllQueues (c.exec db) := by
  intro name
  obtain ⟨front, items, hq⟩ := h c.name
  obtain ⟨hqueue, hothers⟩ := c.keeps hq
  rcases eq_or_ne name c.name with rfl | hne
  · exact hqueue
  · obtain ⟨front', items', hq'⟩ := h name
    exact ⟨front', items', hothers name hne front' items' hq'⟩

/-- Queues are lists after any commands. -/
theorem allQueues_commands (cs : List QueueCommand) :
    Db.AllQueues (cs.foldl QueueCommand.exec OrderedMap.empty) := by
  apply List.foldlRecOn (motive := Db.AllQueues) cs
  · exact fun name => ⟨0, [], Db.isQueue_empty name 0⟩
  · exact fun db h c _ => c.exec_allQueues h

/-- Either there is no record of the queue, or its items occupy the numbers from the front to the
back pointer and the size counts them. -/
def Db.QueueShape (db : Db) (name : Bytes) : Prop :=
  (db.get (encodeQsizeKey name) = none ∧
    ∀ seq < 2 ^ 64, db.get (encodeQitemKey name seq) = none) ∨
  ∃ front back : ℕ, front ≤ back ∧
    db.get (encodeQsizeKey name) = some (.int (back - front + 1)) ∧
    db.get (encodeQitemKey name qfrontSeq) = some (.int front) ∧
    db.get (encodeQitemKey name qbackSeq) = some (.int back) ∧
    ∀ seq < 2 ^ 64, seq ≠ qfrontSeq → seq ≠ qbackSeq →
      ((db.get (encodeQitemKey name seq)).isSome ↔ front ≤ seq ∧ seq ≤ back)

theorem Db.IsQueue.shape {db : Db} {name : Bytes} {front : ℕ} {items : List Bytes}
    (h : db.IsQueue name front items) : db.QueueShape name := by
  rcases eq_or_ne items [] with rfl | hne
  · left
    refine ⟨h.size, ?_⟩
    intro seq hseq
    rcases eq_or_ne seq qfrontSeq with rfl | hf
    · exact h.frontPointer
    · rcases eq_or_ne seq qbackSeq with rfl | hb
      · exact h.backPointer
      · rw [h.item seq hseq hf hb]
        simp
  · right
    obtain ⟨hlow, hhigh, hpos⟩ := h.front_lt hne
    refine ⟨front, front + items.length - 1, by omega, ?_, ?_, ?_, ?_⟩
    · rw [h.size, if_neg hne]
      congr 2
      omega
    · rw [h.frontPointer, if_neg hne]
    · rw [h.backPointer, if_neg hne]
    · intro seq hseq hf hb
      rw [h.item seq hseq hf hb]
      split
      · rw [Option.isSome_map, isSome_getElem?]
        omega
      · simp only [Option.isSome_none, Bool.false_eq_true, false_iff]
        omega

/-- **A queue is a list.**  After any commands every queue has its shape and its size is the length of the
list; every command does to its queue what `QueueCommand.spec` does to the list, with the same reply, exactly
if it is no trim of `2^31` items or more; and it does nothing to the others.  A push for which there is no
number left fails and changes nothing. -/
theorem queue_is_list (cs : List QueueCommand) :
    let db := cs.foldl QueueCommand.exec OrderedMap.empty
    (∀ name, db.QueueShape name ∧ qsize db name = (queueItems db name).length) ∧
      (∀ c : QueueCommand,
        (queueItems (c.exec db) c.name = (c.spec (room db c.name) (queueItems db c.name)).1 ∧
            (c.run db).2 = (c.spec (room db c.name) (queueItems db c.name)).2 ↔
          c.Counts (queueItems db c.name)) ∧
        ∀ name ≠ c.name, queueItems (c.exec db) name = queueItems db name) ∧
      ∀ name item e, room db name e = 0 → qpush db name item e .sync = (-1, []) := by
  intro db
  have hall : db.AllQueues := allQueues_commands cs
  refine ⟨?_, ?_, ?_⟩
  · intro name
    obtain ⟨front, items, h⟩ := hall name
    rw [h.queueItems_eq]
    exact ⟨h.shape, h.qsize_eq⟩
  · intro c
    obtain ⟨front, items, h⟩ := hall c.name
    obtain ⟨⟨front', items', hq⟩, hothers⟩ := c.keeps h
    rw [h.queueItems_eq]
    refine ⟨?_, ?_⟩
    · rw [← c.does_iff h, hq.queueItems_eq]
      constructor
      · rintro ⟨hlist, hreply⟩
        rw [hlist] at hq
        exact ⟨⟨front', hq⟩, hreply⟩
      · rintro ⟨⟨front'', hq'⟩, hreply⟩
        exact ⟨hq.queueItems_eq.symm.trans hq'.queueItems_eq, hreply⟩
    · intro name hne
      obtain ⟨front, items, h⟩ := hall name
      rw [h.queueItems_eq]
      exact (hothers name hne front items h).queueItems_eq
  · intro name item e hfull
    obtain ⟨front, items, h⟩ := hall name
    exact h.qpush_full hfull item .sync

/-- A push of `n + 1` items into the queue `q`. -/
def pushMany (n : ℕ) : QueueCommand := .qpushBack (ascii "q") (ascii "x") (List.replicate n (ascii "x"))

theorem isQueue_pushMany {n : ℕ} (hn : n + 1 ≤ qitemMaxSeq - qitemSeqInit) :
    ∃ front, Db.IsQueue ((pushMany n).exec OrderedMap.empty) (ascii "q") front
      (List.replicate (n + 1) (ascii "x")) := by
  have hempty : Db.IsQueue OrderedMap.empty (ascii "q") 0 [] := Db.isQueue_empty (ascii "q") 0
  obtain ⟨front, hq⟩ := ((pushMany n).does hempty trivial).list
  have hitems : ((pushMany n).spec (room OrderedMap.empty (pushMany n).name) []).1 =
      List.replicate (n + 1) (ascii "x") := by
    simp only [pushMany, QueueCommand.spec, QueueCommand.specPush, QueueCommand.name, QueueEnd.pushMany,
      hempty.room_back, if_true, List.nil_append]
    rw [← List.replicate_succ, List.take_of_length_le]
    rw [List.length_replicate]
    exact hn
  rw [hitems] at hq
  exact ⟨front, hq⟩

/-- A trim of `n + 1` items, with the `int` at its end after `n` of them. -/
theorem trim_overflows {db : Db} {front n : ℕ} {x : Bytes} (hn : n = 2 ^ 31)
    (h : db.IsQueue (ascii "q") front (List.replicate (n + 1) x)) :
    queueItems ((QueueCommand.qtrimFront (ascii "q") (n + 1)).exec db) (ascii "q") = [x] ∧
      ((QueueCommand.qtrimFront (ascii "q") (n + 1)).run db).2 = replyInt 0 (toInt n) := by
  have hturns := trimTurns_eq
  have hzero : toInt 0 = 0 := toInt_of_lt (by decide)
  obtain ⟨⟨front', hlist⟩, hcount⟩ := trimLoop_spec (ascii "q") .front (n + 1) trimTurns h (n := 0)
    (by omega) (by omega) (by omega)
  have hmin : min (n + 1) (2 ^ 31) - 0 = n := by omega
  have hremoved : 0 + min n (n + 1) = n := by omega
  rw [hzero, hmin, QueueEnd.dropMany, List.drop_replicate, Nat.add_sub_cancel_left] at hlist
  rw [hzero, hmin, List.length_replicate, hremoved] at hcount
  exact ⟨hlist.queueItems_eq, congrArg (replyInt 0) hcount⟩

/-- **A trim that stops too early**: of `2^31 + 1` items that it should remove one stays, and the number in the
reply is negative. -/
theorem qtrim_overflows :
    queueItems ([pushMany (2 ^ 31)].foldl QueueCommand.exec OrderedMap.empty) (ascii "q") =
        List.replicate (2 ^ 31 + 1) (ascii "x") ∧
      queueItems ((QueueCommand.qtrimFront (ascii "q") (2 ^ 31 + 1)).exec
        ([pushMany (2 ^ 31)].foldl QueueCommand.exec OrderedMap.empty)) (ascii "q") = [ascii "x"] ∧
      ((QueueCommand.qtrimFront (ascii "q") (2 ^ 31 + 1)).run
        ([pushMany (2 ^ 31)].foldl QueueCommand.exec OrderedMap.empty)).2 = replyInt 0 (-2 ^ 31) := by
  have hnegative : toInt (2 ^ 31) = -2 ^ 31 := by decide
  rw [← hnegative, List.foldl_cons, List.foldl_nil]
  generalize hn : (2 : ℕ) ^ 31 = n
  obtain ⟨front, hq⟩ := isQueue_pushMany (n := n) (by
    simp only [qitemMaxSeq, qitemSeqInit]
    omega)
  exact ⟨hq.queueItems_eq, trim_overflows hn.symm hq⟩

/-! ## Queries -/

/-- `reply_list`. -/
def replyList (status : ℤ) (list : List Bytes) : List Bytes :=
  if status = -1 then [ascii "error"] else ascii "ok" :: list

/-- `proc_qsize`. -/
def procQsize (db : Db) (name : Bytes) : List Bytes := replyInt (qsize db name) (qsize db name)

/-- The loop of `qslice`: `n` numbers from `seq` on, up to the first without an item. -/
def qsliceLoop (db : Db) (name : Bytes) : ℕ → ℕ → List Bytes
  | 0, _ => []
  | n + 1, seq =>
      match qgetBySeq db name seq with
      | none => []
      | some item => item :: qsliceLoop db name n (seq + 1)

/-- The number of the item that an index means: from the front, or a negative one from the back. -/
def sliceSeq (front back : ℕ) (index : ℤ) : ℕ :=
  if 0 ≤ index then uint64 (front + index) else uint64 (back + index + 1)

/-- `qslice`; only the pointers that the indices need are read. -/
def qslice (db : Db) (name : Bytes) (first last : ℤ) : ℤ × List Bytes :=
  let front := if 0 ≤ first ∨ 0 ≤ last then qgetUint64 db name qfrontSeq else .found 0
  let back := if first < 0 ∨ last < 0 then qgetUint64 db name qbackSeq else .found 0
  match front, back with
  | .error, _ => (-1, [])
  | .notFound, _ => (0, [])
  | .found _, .error => (-1, [])
  | .found _, .notFound => (0, [])
  | .found f, .found b =>
      (0, qsliceLoop db name (sliceSeq f b last + 1 - sliceSeq f b first) (sliceSeq f b first))

/-- `proc_qslice`. -/
def procQslice (db : Db) (name : Bytes) (first last : ℤ) : List Bytes :=
  replyList (qslice db name first last).1 (qslice db name first last).2

/-- The `end` of `proc_qrange`, an `int64_t`; a limit from `2^63` on is negative as one. -/
def rangeEnd (first : ℤ) (limit : ℕ) : ℤ :=
  if (limit : ℤ).bmod (2 ^ 64) < 0 then -1 else (first + limit - 1).bmod (2 ^ 64)

/-- `proc_qrange`. -/
def procQrange (db : Db) (name : Bytes) (first : ℤ) (limit : ℕ) : List Bytes :=
  procQslice db name first (rangeEnd first limit)

section Queries

variable {db : Db} {name : Bytes} {front : ℕ} {items : List Bytes}

theorem procQsize_eq (h : db.IsQueue name front items) :
    procQsize db name = [ascii "ok", str items.length] := by
  rw [procQsize, h.qsize_eq, replyInt, if_neg (by omega)]

/-- The loop reads the items in order. -/
theorem qsliceLoop_eq (h : db.IsQueue name front items) (hne : items ≠ []) (n : ℕ) :
    ∀ i, front + i + n ≤ 2 ^ 64 → qsliceLoop db name n (front + i) = (items.drop i).take n := by
  have hbounds := h.front_lt hne
  simp only [qitemMinSeq] at hbounds
  induction n with
  | zero => intro i _; simp [qsliceLoop]
  | succ n ih =>
      intro i hi
      by_cases hlt : i < items.length
      · have hget : qgetBySeq db name (front + i) = some items[i] := by
          rw [qgetBySeq, h.get_item hlt]
          rfl
        rw [qsliceLoop, hget]
        dsimp only
        rw [List.drop_eq_getElem_cons hlt, List.take_succ_cons, add_assoc, ih (i + 1) (by omega)]
      · have hget : qgetBySeq db name (front + i) = none := by
          rw [qgetBySeq, h.item (front + i) (by omega) (by simp only [qfrontSeq]; omega)
            (by simp only [qbackSeq]; omega), if_pos (by omega), List.getElem?_eq_none (by omega)]
          rfl
        rw [qsliceLoop, hget, List.drop_eq_nil_of_le (by omega), List.take_nil]

/-- **A range of a queue** is the range of the list. -/
theorem procQrange_eq (h : db.IsQueue name front items) {first limit : ℕ} (hlimit : 0 < limit)
    (hrange : first + limit < 2 ^ 62) :
    procQrange db name first limit = ascii "ok" :: (items.drop first).take limit := by
  have hmod : ¬ (limit : ℤ).bmod (2 ^ 64) < 0 := by
    rw [Int.bmod_eq_of_le (by omega) (by omega)]
    omega
  have hend : rangeEnd first limit = (first : ℤ) + limit - 1 := by
    have hfits : ((first : ℤ) + limit - 1).bmod (2 ^ 64) = (first : ℤ) + limit - 1 :=
      Int.bmod_eq_of_le_mul_two (by omega) (by omega)
    unfold rangeEnd
    rw [if_neg hmod, hfits]
  have hlast : ¬ (first : ℤ) + limit - 1 < 0 := by omega
  have hfirst : ¬ (first : ℤ) < 0 := by omega
  have hpointer := h.qgetUint64_eq .front
  simp only [QueueEnd.seq] at hpointer
  rw [procQrange, hend, procQslice, qslice, if_pos (Or.inl (by omega)),
    if_neg (by omega : ¬ ((first : ℤ) < 0 ∨ (first : ℤ) + limit - 1 < 0)), hpointer]
  split_ifs with hnil
  · subst hnil
    simp [replyList]
  · have hbounds := h.front_lt hnil
    have hseq : ∀ z : ℤ, 0 ≤ z → z < 2 ^ 62 → sliceSeq front 0 z = front + z.toNat := by
      intro z hz hlt
      rw [sliceSeq, if_pos hz, uint64]
      omega
    dsimp only
    rw [hseq _ (by omega) (by omega), hseq _ (by omega) (by omega), replyList, if_neg (by omega),
      Int.toNat_natCast, show front + ((first : ℤ) + limit - 1).toNat + 1 - (front + first) = limit by omega,
      qsliceLoop_eq h hnil limit first (by omega)]

end Queries

end Ssdb
