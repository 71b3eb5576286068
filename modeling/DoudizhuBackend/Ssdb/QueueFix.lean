/-
# Repairing a queue

`SSDBImpl::qfix` of `ssdb-master/src/ssdb/t_queue.cpp`: size, front and back of a queue are computed anew
from the records in the range of its items.

The records of the range are taken for items of the queue.  Names longer than 255 bytes have their length cut
to one byte, so that the records of another queue can lie in the range: their keys go on, behind the name, with
more than eight bytes, and `decode_qitem_key` reads the first eight of them as a number.  The repair is right
exactly if there is no such record, and none with fewer than eight bytes either (`qfix_repairs_iff`).
-/
import DoudizhuBackend.Ssdb.Queue
import DoudizhuBackend.Ssdb.ZsetScan

namespace Ssdb

/-- The loop of `qfix` over the records of the range: least and greatest number and how many there are, or
nothing when a key is not one of an item. -/
def qfixLoop : List (Bytes × Value) → ℕ → ℕ → ℕ → Option (ℕ × ℕ × ℕ)
  | [], seqMin, seqMax, count => some (seqMin, seqMax, count)
  | p :: es, seqMin, _, count =>
      match decodeQitemKey p.1 with
      | none => none
      | some (_, seq) => qfixLoop es (if seqMin = 0 then seq else seqMin) seq ((count + 1) % 2 ^ 64)

/-- `qfix`. -/
def qfix (db : Db) (name : Bytes) : ℤ × List Write :=
  match qfixLoop (iterator db (encodeQitemKey name (qitemMinSeq - 1)) (encodeQitemKey name qitemMaxSeq)
      qitemMaxSeq) 0 0 0 with
  | none => (-1, [])
  | some (seqMin, seqMax, count) =>
      if count = 0 then
        (0, [.delete (encodeQsizeKey name), .delete (encodeQitemKey name qfrontSeq),
          .delete (encodeQitemKey name qbackSeq)])
      else
        (0, [.put (encodeQsizeKey name) (.int count), .put (encodeQitemKey name qfrontSeq) (.int seqMin),
          .put (encodeQitemKey name qbackSeq) (.int seqMax)])

/-! ## Damaged and repaired queues -/

/-- **The items of the queue `name`** have the `n` numbers from `first` on, whatever its size record and
its pointers say. -/
structure Db.HasItems (db : Db) (name : Bytes) (first n : ℕ) : Prop where
  item : ∀ seq < 2 ^ 64, seq ≠ qfrontSeq → seq ≠ qbackSeq →
    ((db.get (encodeQitemKey name seq)).isSome ↔ first ≤ seq ∧ seq < first + n)
  lower : n ≠ 0 → qitemMinSeq < first
  upper : n ≠ 0 → first + n ≤ qitemMaxSeq

/-- **The queue is repaired**: size and pointers are those of its items, and nothing else has changed. -/
structure Db.Repaired (db db' : Db) (name : Bytes) (first n : ℕ) : Prop where
  size : db'.get (encodeQsizeKey name) = if n = 0 then none else some (.int n)
  frontPointer : db'.get (encodeQitemKey name qfrontSeq) = if n = 0 then none else some (.int first)
  backPointer : db'.get (encodeQitemKey name qbackSeq) =
    if n = 0 then none else some (.int (first + n - 1 : ℕ))
  other : ∀ k, k ≠ encodeQsizeKey name → k ≠ encodeQitemKey name qfrontSeq →
    k ≠ encodeQitemKey name qbackSeq → db'.get k = db.get k

/-- The items of a queue that is not damaged. -/
theorem Db.IsQueue.hasItems {db : Db} {name : Bytes} {front : ℕ} {items : List Bytes}
    (h : db.IsQueue name front items) : db.HasItems name front items.length where
  item := by
    intro seq hseq hfront hback
    rw [h.item seq hseq hfront hback]
    split
    · rename_i hle
      simp only [Option.isSome_map, isSome_getElem?]
      omega
    · rename_i hlt
      exact iff_of_false (by simp) (by omega)
  lower := fun hn => h.lower (List.ne_nil_of_length_pos (Nat.pos_of_ne_zero hn))
  upper := fun hn => h.upper (List.ne_nil_of_length_pos (Nat.pos_of_ne_zero hn))

/-- **A repaired queue is the queue of its items.** -/
theorem Db.Repaired.isQueue {db db' : Db} {name : Bytes} {first : ℕ} {items : List Bytes}
    (hr : db.Repaired db' name first items.length) (h : db.HasItems name first items.length)
    (hitems : ∀ i (hi : i < items.length), db.get (encodeQitemKey name (first + i)) = some (.bytes items[i])) :
    db'.IsQueue name first items where
  size := by simp only [hr.size, List.length_eq_zero_iff]
  frontPointer := by simp only [hr.frontPointer, List.length_eq_zero_iff]
  backPointer := by simp only [hr.backPointer, List.length_eq_zero_iff]
  item := by
    intro seq hseq hfront hback
    rw [hr.other _ (qsizeKey_ne_qitemKey _ _ _).symm
      (fun heq => hfront (encodeQitemKey_inj hseq (by decide) heq).2)
      (fun heq => hback (encodeQitemKey_inj hseq (by decide) heq).2)]
    have hiff := h.item seq hseq hfront hback
    by_cases hin : first ≤ seq ∧ seq < first + items.length
    · have hi : seq - first < items.length := by omega
      have hget := hitems (seq - first) hi
      rw [Nat.add_sub_cancel' hin.1] at hget
      rw [hget, if_pos hin.1, List.getElem?_eq_getElem hi]
      rfl
    · have hnone : db.get (encodeQitemKey name seq) = none := by
        rw [← Option.not_isSome_iff_eq_none, hiff]
        exact hin
      rw [hnone]
      split
      · rename_i hle
        rw [List.getElem?_eq_none (by omega)]
        rfl
      · rfl
  lower := fun hne => h.lower (List.length_pos_of_ne_nil hne).ne'
  upper := fun hne => h.upper (List.length_pos_of_ne_nil hne).ne'

/-- The start of the keys of items. -/
def queueStart (name : Bytes) : Bytes := DataType.QUEUE :: lenByte name :: name

/-- What stands behind the name in a key that lies in the range of the items and is not one of an item. -/
def StrayTail (c : Bytes) : Prop :=
  c.length ≠ 8 ∧ bigEndian (qitemMinSeq - 1) < c ∧ c ≤ bigEndian qitemMaxSeq

theorem encodeQitemKey_eq (name : Bytes) (seq : ℕ) :
    encodeQitemKey name seq = queueStart name ++ bigEndian seq := rfl

/-- The records of the range. -/
def itemRange (db : Db) (name : Bytes) : List (Bytes × Value) :=
  (db.under (queueStart name)).filter fun p =>
    bigEndian (qitemMinSeq - 1) < p.1 ∧ p.1 ≤ bigEndian qitemMaxSeq

theorem iterator_itemRange (db : Db) (name : Bytes) :
    iterator db (encodeQitemKey name (qitemMinSeq - 1)) (encodeQitemKey name qitemMaxSeq) qitemMaxSeq =
      ((itemRange db name).take qitemMaxSeq).map (OrderedMap.attach (queueStart name)) := by
  have hlast : encodeQitemKey name qitemMaxSeq ≠ [] := List.cons_ne_nil _ _
  rw [iterator_eq db _ hlast, encodeQitemKey_eq, encodeQitemKey_eq, db.filter_between, List.map_take,
    itemRange]

theorem mem_itemRange {db : Db} {name c : Bytes} {v : Value} :
    (c, v) ∈ itemRange db name ↔ db.get (queueStart name ++ c) = some v ∧
      bigEndian (qitemMinSeq - 1) < c ∧ c ≤ bigEndian qitemMaxSeq := by
  rw [itemRange, List.mem_filter, OrderedMap.mem_under, decide_eq_true_eq]

/-! ## The loop -/

/-- However it ends, the loop has counted the records. -/
theorem count_of_qfixLoop (es : List (Bytes × Value)) : ∀ {seqMin seqMax count a b n : ℕ},
    qfixLoop es seqMin seqMax count = some (a, b, n) → count < 2 ^ 64 →
      n = (count + es.length) % 2 ^ 64 := by
  induction es with
  | nil =>
      intro seqMin seqMax count a b n h hcount
      obtain ⟨-, -, rfl⟩ : seqMin = a ∧ seqMax = b ∧ count = n := by simpa [qfixLoop] using h
      rw [List.length_nil, Nat.add_zero, Nat.mod_eq_of_lt hcount]
  | cons p es ih =>
      intro seqMin seqMax count a b n h _
      rw [qfixLoop] at h
      split at h
      · cases h
      · rw [ih h (Nat.mod_lt _ (by decide)), List.length_cons]
        omega

/-- Over records of items with the numbers from `first` on, the loop finds the first, the last and their
number. -/
theorem qfixLoop_items {name : Bytes} (hname : IsShort name) (es : List (Bytes × Value)) :
    ∀ first seqMin seqMax count : ℕ, 0 < first → first + es.length ≤ 2 ^ 64 →
      count + es.length < 2 ^ 64 → es.map (·.1) = (List.range' first es.length).map bigEndian →
      qfixLoop (es.map (OrderedMap.attach (queueStart name))) seqMin seqMax count =
        some (if seqMin = 0 ∧ es ≠ [] then first else seqMin,
          if es = [] then seqMax else first + es.length - 1, count + es.length) := by
  induction es with
  | nil =>
      intro first seqMin seqMax count _ _ _ _
      simp [qfixLoop]
  | cons p es ih =>
      intro first seqMin seqMax count hfirst hbound hcount hkeys
      rw [List.length_cons] at hbound hcount
      rw [List.map_cons, List.length_cons, List.range'_succ, List.map_cons, List.cons.injEq] at hkeys
      obtain ⟨hp, hkeys⟩ := hkeys
      have hdecode : decodeQitemKey (queueStart name ++ p.1) = some (name, first) := by
        rw [hp]
        exact decodeQitemKey_encode hname (by omega)
      rw [List.map_cons, qfixLoop]
      simp only [OrderedMap.attach, hdecode]
      rw [Nat.mod_eq_of_lt (by omega)]
      rw [ih (first + 1) _ first (count + 1) (by omega) (by omega) (by omega) hkeys]
      congr 1
      refine Prod.ext ?_ (Prod.ext ?_ ?_)
      · by_cases hmin : seqMin = 0
        · simp [hmin, hfirst.ne']
        · simp [hmin]
      · cases es with
        | nil => simp
        | cons q es => simp only [reduceCtorEq, if_false, List.length_cons]; omega
      · simp only [List.length_cons]
        omega

/-! ## The records of the range -/

section Repair

variable {db : Db} {name : Bytes} {first n : ℕ}

theorem Db.HasItems.bounds (h : db.HasItems name first n) {seq : ℕ} (hlow : first ≤ seq)
    (hhigh : seq < first + n) : qitemMinSeq < seq ∧ seq < qitemMaxSeq := by
  have hlower := h.lower (by omega)
  have hupper := h.upper (by omega)
  omega

/-- The record of an item lies in the range. -/
theorem Db.HasItems.mem_itemRange (h : db.HasItems name first n) {seq : ℕ} (hlow : first ≤ seq)
    (hhigh : seq < first + n) : ∃ v, (bigEndian seq, v) ∈ itemRange db name := by
  obtain ⟨hmin, hmax⟩ := h.bounds hlow hhigh
  simp only [qitemMinSeq, qitemMaxSeq] at hmin hmax
  have hitem := (h.item seq (by omega) (by simp only [qfrontSeq]; omega)
    (by simp only [qbackSeq]; omega)).mpr ⟨hlow, hhigh⟩
  obtain ⟨v, hv⟩ := Option.isSome_iff_exists.mp hitem
  refine ⟨v, Ssdb.mem_itemRange.mpr ⟨hv, bigEndian_lt ?_ (by omega), (bigEndian_lt ?_ ?_).le⟩⟩
  · simp only [qitemMinSeq]
    omega
  · exact hmax
  · decide

/-- **Without stray records** the range holds the items and nothing else. -/
theorem Db.HasItems.keys_itemRange (h : db.HasItems name first n)
    (hclean : ∀ c v, db.get (queueStart name ++ c) = some v → ¬ StrayTail c) :
    (itemRange db name).map (·.1) = (List.range' first n).map bigEndian := by
  have hleft : ((itemRange db name).map (·.1)).Pairwise (· < ·) := by
    rw [List.pairwise_map]
    exact (db.under_sorted _).filter _
  have hright : ((List.range' first n).map bigEndian).Pairwise (· < ·) := by
    rw [List.pairwise_map]
    refine List.Pairwise.imp_of_mem ?_ List.pairwise_lt_range'
    intro a b _ hb hlt
    rw [List.mem_range'_1] at hb
    have hbound := (h.bounds hb.1 hb.2).2
    simp only [qitemMaxSeq] at hbound
    exact bigEndian_lt hlt (by omega)
  have hirrefl : Std.Irrefl fun s t : Bytes => s < t := ⟨fun s => List.lt_irrefl s⟩
  have hanti : Std.Antisymm fun s t : Bytes => s < t := ⟨fun _ _ hst hts => absurd hts (List.lt_asymm hst)⟩
  apply hleft.eq_of_mem_iff hright
  intro c
  rw [List.mem_map, List.mem_map]
  constructor
  · rintro ⟨⟨c, v⟩, hmem, rfl⟩
    obtain ⟨hget, hlow, hhigh⟩ := Ssdb.mem_itemRange.mp hmem
    have hlength : c.length = 8 := by
      by_contra hne
      exact hclean c v hget ⟨hne, hlow, hhigh⟩
    have hlt : ofBigEndian c < 2 ^ 64 := by
      have := ofBigEndian_lt c
      rwa [hlength] at this
    rw [← bigEndian_ofBigEndian hlength] at hlow hget
    rw [bigEndian_lt_iff (by decide) hlt] at hlow
    simp only [qitemMinSeq] at hlow
    have hitem := (h.item _ hlt (by simp only [qfrontSeq]; omega) (by simp only [qbackSeq]; omega)).mp
      (Option.isSome_of_eq_some hget)
    exact ⟨ofBigEndian c, List.mem_range'_1.mpr hitem, bigEndian_ofBigEndian hlength⟩
  · rintro ⟨seq, hseq, rfl⟩
    obtain ⟨hlow, hhigh⟩ := List.mem_range'_1.mp hseq
    obtain ⟨v, hv⟩ := h.mem_itemRange hlow hhigh
    exact ⟨_, hv, rfl⟩

/-- A stray record is one more than the items. -/
theorem Db.HasItems.lt_length_itemRange (h : db.HasItems name first n) {c : Bytes} {v : Value}
    (hget : db.get (queueStart name ++ c) = some v) (hstray : StrayTail c) :
    n < (itemRange db name).length := by
  have hnodup : (c :: (List.range' first n).map bigEndian).Nodup := by
    rw [List.nodup_cons]
    constructor
    · intro hmem
      obtain ⟨seq, -, rfl⟩ := List.mem_map.mp hmem
      exact hstray.1 (length_bigEndian seq)
    · rw [List.nodup_map_iff_inj_on List.nodup_range']
      intro a ha b hb heq
      rw [List.mem_range'_1] at ha hb
      have hbounda := (h.bounds ha.1 ha.2).2
      have hboundb := (h.bounds hb.1 hb.2).2
      simp only [qitemMaxSeq] at hbounda hboundb
      exact bigEndian_inj (by omega) (by omega) heq
  have hsubset : (c :: (List.range' first n).map bigEndian) ⊆ (itemRange db name).map (·.1) := by
    intro d hd
    rw [List.mem_map]
    rcases List.mem_cons.mp hd with rfl | hd
    · exact ⟨(d, v), Ssdb.mem_itemRange.mpr ⟨hget, hstray.2⟩, rfl⟩
    · obtain ⟨seq, hseq, rfl⟩ := List.mem_map.mp hd
      obtain ⟨hlow, hhigh⟩ := List.mem_range'_1.mp hseq
      obtain ⟨w, hw⟩ := h.mem_itemRange hlow hhigh
      exact ⟨_, hw, rfl⟩
  have hle := (List.subperm_of_subset hnodup hsubset).length_le
  rw [List.length_cons, List.length_map, List.length_range', List.length_map] at hle
  omega

theorem Db.HasItems.lt_max (h : db.HasItems name first n) : n < qitemMaxSeq := by
  by_cases hn : n = 0
  · rw [hn]
    decide
  · have hlower := h.lower hn
    have hupper := h.upper hn
    simp only [qitemMinSeq] at hlower
    omega

/-! ## The repair -/

theorem qfrontKey_ne_qbackKey (name : Bytes) :
    encodeQitemKey name qfrontSeq ≠ encodeQitemKey name qbackSeq := by
  intro heq
  exact absurd (encodeQitemKey_inj (by decide) (by decide) heq).2 (by decide)

/-- The three records that `qfix` writes. -/
theorem repaired_delete (db : Db) (name : Bytes) (first : ℕ) :
    db.Repaired (db.apply [.delete (encodeQsizeKey name), .delete (encodeQitemKey name qfrontSeq),
      .delete (encodeQitemKey name qbackSeq)]) name first 0 where
  size := by
    simp only [Db.apply_delete, Db.apply_nil, get_delete_qitem_qsize, OrderedMap.get_delete_self, if_true]
  frontPointer := by
    simp only [Db.apply_delete, Db.apply_nil, OrderedMap.get_delete_of_ne _ (qfrontKey_ne_qbackKey name), OrderedMap.get_delete_self, if_true]
  backPointer := by simp only [Db.apply_delete, Db.apply_nil, OrderedMap.get_delete_self, if_true]
  other := by
    intro k hsize hfront hback
    rw [Db.apply_delete, Db.apply_delete, Db.apply_delete, Db.apply_nil, OrderedMap.get_delete_of_ne _ hback,
      OrderedMap.get_delete_of_ne _ hfront, OrderedMap.get_delete_of_ne _ hsize]

theorem repaired_put (db : Db) (name : Bytes) (first : ℕ) (hn : n ≠ 0) :
    db.Repaired (db.apply [.put (encodeQsizeKey name) (.int n), .put (encodeQitemKey name qfrontSeq) (.int first),
      .put (encodeQitemKey name qbackSeq) (.int (first + n - 1 : ℕ))]) name first n where
  size := by
    simp only [Db.apply_put, Db.apply_nil, get_put_qitem_qsize, OrderedMap.get_put_self, if_neg hn]
  frontPointer := by
    simp only [Db.apply_put, Db.apply_nil, OrderedMap.get_put_of_ne _ _ (qfrontKey_ne_qbackKey name), OrderedMap.get_put_self, if_neg hn]
  backPointer := by simp only [Db.apply_put, Db.apply_nil, OrderedMap.get_put_self, if_neg hn]
  other := by
    intro k hsize hfront hback
    rw [Db.apply_put, Db.apply_put, Db.apply_put, Db.apply_nil, OrderedMap.get_put_of_ne _ _ hback,
      OrderedMap.get_put_of_ne _ _ hfront, OrderedMap.get_put_of_ne _ _ hsize]

/-- **The repair is right** exactly if no other record lies in the range of the items. -/
theorem qfix_repairs_iff (hname : IsShort name) (h : db.HasItems name first n) :
    ((qfix db name).1 = 0 ∧ db.Repaired (db.apply (qfix db name).2) name first n) ↔
      ∀ c v, db.get (queueStart name ++ c) = some v → ¬ StrayTail c := by
  have hmax := h.lt_max
  constructor
  · rintro ⟨hret, hrepaired⟩ c v hget hstray
    have hmore := h.lt_length_itemRange hget hstray
    have hsize := hrepaired.size
    -- the loop has counted at least one record more than there are items
    rw [qfix, iterator_itemRange] at hret hsize
    split at hret
    · cases hret
    · rename_i seqMin seqMax count hloop
      have hcount := count_of_qfixLoop _ hloop (by decide)
      rw [List.length_map, List.length_take, Nat.zero_add] at hcount
      have hlt : n < count := by
        simp only [qitemMaxSeq] at hmax hcount
        omega
      rw [hloop] at hsize
      simp only [if_neg (show ¬ count = 0 by omega)] at hsize
      simp only [Db.apply_put, Db.apply_nil, get_put_qitem_qsize, OrderedMap.get_put_self] at hsize
      split at hsize
      · cases hsize
      · obtain rfl : count = n := by simpa using hsize
        exact lt_irrefl _ hlt
  · intro hclean
    have hkeys := h.keys_itemRange hclean
    have hlength : (itemRange db name).length = n := by
      have := congrArg List.length hkeys
      simpa using this
    have htake : (itemRange db name).take qitemMaxSeq = itemRange db name :=
      List.take_of_length_le (by omega)
    have hloop := qfixLoop_items hname (itemRange db name) first 0 0 0
    rw [hlength] at hloop
    by_cases hn : n = 0
    · have hnil : itemRange db name = [] := List.length_eq_zero_iff.mp (hlength.trans hn)
      rw [qfix, iterator_itemRange, hnil, hn]
      exact ⟨rfl, repaired_delete db name first⟩
    · have hlower := h.lower hn
      have hupper := h.upper hn
      simp only [qitemMinSeq, qitemMaxSeq] at hlower hupper
      have hne : itemRange db name ≠ [] := by
        intro hnil
        rw [hnil] at hlength
        exact hn hlength.symm
      have hfix : qfix db name = (0, [.put (encodeQsizeKey name) (.int n),
          .put (encodeQitemKey name qfrontSeq) (.int first),
          .put (encodeQitemKey name qbackSeq) (.int (first + n - 1 : ℕ))]) := by
        rw [qfix, iterator_itemRange, htake, hloop (by omega) (by omega) (by omega) hkeys]
        simp [hne, hn]
      rw [hfix]
      exact ⟨rfl, repaired_put db name first hn⟩

end Repair

/-- A queue with three items, whose pointers are lost and whose size is wrong. -/
def damagedQueue : Db :=
  (((OrderedMap.empty.put (encodeQsizeKey (ascii "a")) (.int 7)).put (encodeQitemKey (ascii "a") 20000)
    (.bytes (ascii "x"))).put (encodeQitemKey (ascii "a") 20001) (.bytes (ascii "y"))).put
    (encodeQitemKey (ascii "a") 20002) (.bytes (ascii "z"))

theorem hasItems_damagedQueue : damagedQueue.HasItems (ascii "a") 20000 3 where
  item := by
    intro seq hseq _ _
    rw [damagedQueue, get_put_qitem _ _ _ (by decide) hseq, get_put_qitem _ _ _ (by decide) hseq,
      get_put_qitem _ _ _ (by decide) hseq, OrderedMap.get_put_of_ne _ _ (qsizeKey_ne_qitemKey _ _ _).symm,
      OrderedMap.get_empty]
    split_ifs
    · exact iff_of_true rfl (by omega)
    · exact iff_of_true rfl (by omega)
    · exact iff_of_true rfl (by omega)
    · exact iff_of_false (by simp) (by omega)
  lower := by decide
  upper := by decide

theorem qfix_repairs_damagedQueue :
    IsShort (ascii "a") ∧ damagedQueue.HasItems (ascii "a") 20000 3 ∧
      (((qfix damagedQueue (ascii "a")).1 = 0 ∧
          damagedQueue.Repaired (damagedQueue.apply (qfix damagedQueue (ascii "a")).2) (ascii "a") 20000 3) ↔
        ∀ c v, damagedQueue.get (queueStart (ascii "a") ++ c) = some v → ¬ StrayTail c) ∧
      qsize (damagedQueue.apply (qfix damagedQueue (ascii "a")).2) (ascii "a") = 3 ∧
      queueItems (damagedQueue.apply (qfix damagedQueue (ascii "a")).2) (ascii "a") =
        [ascii "x", ascii "y", ascii "z"] := by
  have hname : IsShort (ascii "a") := show (ascii "a").length ≤ 255 by decide
  exact ⟨hname, hasItems_damagedQueue, qfix_repairs_iff hname hasItems_damagedQueue, by decide +kernel,
    by decide +kernel⟩

/-- A name of 257 bytes, whose length byte is that of `a`. -/
def longQueueName : Bytes := ascii "a" ++ List.replicate 256 (chr 'x')

/-- The store after `qpush_back` of one item to the long name. -/
def longQueue : Db := Db.apply OrderedMap.empty (qpushBack OrderedMap.empty longQueueName (ascii "i") .sync).2

/-- The store has no record of the queue `a`. -/
theorem hasItems_longQueue : longQueue.HasItems (ascii "a") 0 0 := by
  have hname : ascii "a" ≠ longQueueName := by decide
  exact ((Db.isQueue_empty (ascii "a") 0).apply_other hname (onQueue_qpush _ _ _ _ _)).hasItems

/-- **Records of another queue are counted**: the repair of the queue `a`, which has no items, gives it
the size 3. -/
theorem qfix_counts_longQueue :
    longQueue.HasItems (ascii "a") 0 0 ∧
      qsize (longQueue.apply (qfix longQueue (ascii "a")).2) (ascii "a") = 3 ∧
      ¬ ((qfix longQueue (ascii "a")).1 = 0 ∧
        longQueue.Repaired (longQueue.apply (qfix longQueue (ascii "a")).2) (ascii "a") 0 0) := by
  have hsize : qsize (longQueue.apply (qfix longQueue (ascii "a")).2) (ascii "a") = 3 := by decide +kernel
  refine ⟨hasItems_longQueue, hsize, ?_⟩
  rintro ⟨-, hrepaired⟩
  rw [qsize, hrepaired.size] at hsize
  cases hsize

end Ssdb
