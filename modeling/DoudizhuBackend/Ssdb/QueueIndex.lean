/-
# Indices of a queue

`qget`, `qset`, `qslice` of `ssdb-master/src/ssdb/t_queue.cpp` and their commands in
`ssdb-master/src/proc_queue.cpp`.  An index is added to the number of the first item, a negative one to
that of the last item, and the sum is the number of a record; in `uint64_t`, so that a sum below zero is
a number beyond all items.

The front and the back pointer are records 2 and 3 of the same queue.  An index far below the front can
mean one of them, and it is then read like an item.  Nothing compares an index with the length, so that
a slice that begins before the first item is empty, one that ends before number 0 runs to the last item,
and `qrange`, which computes the last index before the length is known, mixes indices from the front
with indices from the back.  `queue_indexing` says for which indices the commands do what they do on a
list.
-/
import DoudizhuBackend.Ssdb.Operations

namespace Ssdb

/-! ## The command `qget` -/

/-- `qget`: 1 with the item, 0 without one, -1 after a failure. -/
def qget (db : Db) (name : Bytes) (index : ℤ) : ℤ × Option Bytes :=
  match qgetUint64 db name (if 0 ≤ index then qfrontSeq else qbackSeq) with
  | .error => (-1, none)
  | .notFound => (0, none)
  | .found seq =>
      match qgetBySeq db name (uint64 (seq + if 0 ≤ index then index else index + 1)) with
      | none => (0, none)
      | some item => (1, some item)

/-- `proc_qget`. -/
def procQget (db : Db) (name : Bytes) (index : ℤ) : List Bytes :=
  replyGet (qget db name index).1 (qget db name index).2

/-! ## Indices of a list -/

/-- The place that an index means, an integer because it may lie before the list. -/
def place (items : List Bytes) (index : ℤ) : ℤ :=
  if 0 ≤ index then index else items.length + index

/-- The item at an index. -/
def itemAt (items : List Bytes) (index : ℤ) : Option Bytes :=
  if 0 ≤ place items index then items[(place items index).toNat]? else none

/-- The items between two indices, both included. -/
def itemsBetween (items : List Bytes) (first last : ℤ) : List Bytes :=
  (items.take (place items last + 1).toNat).drop (place items first).toNat

/-- At most `limit` items from an index on. -/
def itemsFrom (items : List Bytes) (first : ℤ) (limit : ℕ) : List Bytes :=
  if 0 ≤ place items first then (items.drop (place items first).toNat).take limit else []

/-- The reply with an item. -/
def itemReply : Option Bytes → List Bytes
  | none => [ascii "not_found"]
  | some item => [ascii "ok", item]

/-! ## Which indices are right -/

/-- The number of the first item. -/
def queueFront (db : Db) (name : Bytes) : ℕ :=
  match qgetUint64 db name qfrontSeq with
  | .found front => front
  | _ => 0

/-- The numbers of the two pointers. -/
def AtPointer (seq : ℤ) : Prop := seq = qfrontSeq ∨ seq = qbackSeq

instance decidableAtPointer (seq : ℤ) : Decidable (AtPointer seq) := inferInstanceAs (Decidable (_ ∨ _))

/-- The pointers from a number on, as the bytes that are stored. -/
def pointersFrom (front : ℕ) (items : List Bytes) (seq : ℤ) : List Bytes :=
  if seq = qfrontSeq then
    [(Value.int front).image, (Value.int (front + items.length - 1 : ℕ)).image]
  else if seq = qbackSeq then [(Value.int (front + items.length - 1 : ℕ)).image]
  else []

/-- **The indices for which `qget` is right**: those that do not mean a pointer. -/
def QgetRight (front : ℕ) (items : List Bytes) (index : ℤ) : Prop :=
  items = [] ∨ ¬ AtPointer (front + place items index)

/-- **The indices for which `qslice` is right.**  A slice that begins in the list must not end before
number 0; one that begins before the list must be empty, and read no pointer (or the items that it
should have are the very bytes of the pointers). -/
def QsliceRight (front : ℕ) (items : List Bytes) (first last : ℤ) : Prop :=
  items = [] ∨
  (0 ≤ place items first ∧ (items.length ≤ place items first ∨ 0 ≤ front + place items last)) ∨
  (place items first < 0 ∧ place items last < 0 ∧
    (AtPointer (front + place items first) →
      0 ≤ front + place items last ∧ place items last < place items first)) ∨
  (place items first < 0 ∧ 0 ≤ place items last ∧
    items.take (place items last + 1).toNat = pointersFrom front items (front + place items first))

/-- **The arguments for which `qrange` is right.**  From the front on: no item there, or the end does
not overflow and `0, 0` is not asked, or the end overflows to a number below 0.  From the back on: the
range ends before the end of the list, or is longer than the list beyond it; before the list: no pointer
is read.  A limit from `2^63` on counts as no limit. -/
def QrangeRight (front : ℕ) (items : List Bytes) (first : ℤ) (limit : ℕ) : Prop :=
  items = [] ∨
  (0 ≤ first ∧
    (items.length ≤ first ∨ 2 ^ 63 ≤ limit ∨ (first + limit - 1 < 2 ^ 63 ∧ (1 ≤ limit ∨ 1 ≤ first)) ∨
      (2 ^ 63 ≤ first + limit - 1 ∧ front + items.length + (first + limit - 1 - 2 ^ 64) < 0))) ∨
  (first < 0 ∧ 0 ≤ place items first ∧
    (2 ^ 63 ≤ limit ∨ first + limit ≤ 0 ∨ items.length ≤ first + limit)) ∨
  (place items first < 0 ∧ (limit = 0 ∨ ¬ AtPointer (front + place items first)))

/-! ## The records that a slice reads -/

/-- What is read from a number on. -/
def recordsFrom (front : ℕ) (items : List Bytes) (seq : ℕ) : List Bytes :=
  if front ≤ seq then items.drop (seq - front) else pointersFrom front items seq

/-- The records between two numbers, as they are compared in `uint64_t`. -/
def window (front : ℕ) (items : List Bytes) (first last : ℤ) : List Bytes :=
  (recordsFrom front items (uint64 first)).take (uint64 last + 1 - uint64 first)

theorem uint64_lt (z : ℤ) : uint64 z < 2 ^ 64 := by
  rw [uint64]
  omega

theorem uint64_of_nonneg {z : ℤ} (h : 0 ≤ z) (hlt : z < 2 ^ 64) : uint64 z = z.toNat := by
  rw [uint64]
  omega

theorem uint64_of_neg {z : ℤ} (h : z < 0) (hlt : -2 ^ 63 ≤ z) : 2 ^ 63 ≤ uint64 z := by
  rw [uint64]
  omega

namespace Db.IsQueue

variable {db : Db} {name : Bytes} {front : ℕ} {items : List Bytes}

theorem queueFront_eq (h : db.IsQueue name front items) (hne : items ≠ []) :
    queueFront db name = front := by
  have hpointer := h.qgetUint64_of_ne_nil .front hne
  simp only [QueueEnd.seq, endSeq] at hpointer
  rw [queueFront, hpointer]

/-- An empty queue has no front. -/
theorem nil_front (h : db.IsQueue name front []) (front' : ℕ) : db.IsQueue name front' [] where
  size := h.size
  frontPointer := h.frontPointer
  backPointer := h.backPointer
  item := by
    intro seq hseq hf hb
    rw [h.item seq hseq hf hb]
    simp
  lower := fun hne => absurd rfl hne
  upper := fun hne => absurd rfl hne

/-- One record: the head of what is read from its number on. -/
theorem qgetBySeq_eq (h : db.IsQueue name front items) (hne : items ≠ []) {seq : ℕ}
    (hseq : seq < 2 ^ 64) : qgetBySeq db name seq = (recordsFrom front items seq).head? := by
  obtain ⟨hlow, hhigh, -⟩ := h.front_lt hne
  simp only [qitemMinSeq] at hlow
  by_cases hfront : seq = qfrontSeq
  · rw [qgetBySeq, recordsFrom, hfront, h.frontPointer, if_neg hne, pointersFrom,
      if_neg (by simp only [qfrontSeq]; omega)]
    rfl
  · by_cases hback : seq = qbackSeq
    · rw [qgetBySeq, recordsFrom, hback, h.backPointer, if_neg hne, pointersFrom,
        if_neg (by simp only [qbackSeq]; omega)]
      rfl
    · rw [qgetBySeq, h.item seq hseq hfront hback, recordsFrom]
      split_ifs
      · rw [Option.map_map, List.head?_drop]
        simp [Function.comp_def, Value.image]
      · rw [pointersFrom, if_neg (by omega), if_neg (by omega)]
        rfl

/-- The records from the next number on. -/
theorem recordsFrom_tail (h : db.IsQueue name front items) (hne : items ≠ []) {seq : ℕ}
    (hsome : recordsFrom front items seq ≠ []) :
    recordsFrom front items (seq + 1) = (recordsFrom front items seq).tail := by
  obtain ⟨hlow, -, -⟩ := h.front_lt hne
  simp only [qitemMinSeq] at hlow
  by_cases hle : front ≤ seq
  · rw [recordsFrom, recordsFrom, if_pos hle, if_pos (by omega), List.tail_drop,
      show seq + 1 - front = seq - front + 1 by omega]
  · rw [recordsFrom, if_neg hle] at hsome
    have hseq : seq = 2 ∨ seq = 3 := by
      by_contra hother
      apply hsome
      rw [pointersFrom, if_neg (by simp only [qfrontSeq]; omega),
        if_neg (by simp only [qbackSeq]; omega)]
    rw [recordsFrom, recordsFrom, if_neg hle, if_neg (by omega)]
    rcases hseq with rfl | rfl <;> rfl

/-- The loop of `qslice` reads the records in order. -/
theorem qsliceLoop_records (h : db.IsQueue name front items) (hne : items ≠ []) (n : ℕ) :
    ∀ seq, seq + n ≤ 2 ^ 64 → qsliceLoop db name n seq = (recordsFrom front items seq).take n := by
  induction n with
  | zero => intro seq _; rw [List.take_zero, qsliceLoop]
  | succ n ih =>
      intro seq hseq
      rw [qsliceLoop, h.qgetBySeq_eq hne (by omega)]
      cases hrecords : recordsFrom front items seq with
      | nil => rfl
      | cons item rest =>
          have hsome : recordsFrom front items seq ≠ [] := by
            rw [hrecords]
            exact List.cons_ne_nil item rest
          have htail := h.recordsFrom_tail hne hsome
          rw [List.head?_cons]
          dsimp only
          rw [List.take_succ_cons, ih (seq + 1) (by omega), htail, hrecords, List.tail_cons]

/-- The number that an index means. -/
theorem sliceSeq_eq (h : db.IsQueue name front items) (hne : items ≠ []) (index : ℤ) :
    sliceSeq front (front + items.length - 1) index = uint64 (front + place items index) := by
  obtain ⟨-, -, hpos⟩ := h.front_lt hne
  rw [sliceSeq, place]
  split_ifs
  · rfl
  · congr 1
    omega

/-- A slice of an empty queue. -/
theorem procQslice_nil (h : db.IsQueue name front []) (first last : ℤ) :
    procQslice db name first last = [ascii "ok"] := by
  have hfront := h.qgetUint64_eq .front
  have hback := h.qgetUint64_eq .back
  simp only [QueueEnd.seq, if_true] at hfront hback
  have hslice : qslice db name first last = (0, []) := by
    rw [qslice, hfront, hback]
    by_cases hf : 0 ≤ first
    · simp [hf]
    · by_cases hl : 0 ≤ last
      · simp [hl]
      · simp [hf, hl, not_le.1 hf, not_le.1 hl]
  rw [procQslice, hslice]
  rfl

/-- What `qslice` returns. -/
theorem procQslice_eq (h : db.IsQueue name front items) (hne : items ≠ []) (first last : ℤ) :
    procQslice db name first last =
      ascii "ok" :: window front items (front + place items first) (front + place items last) := by
  have hfront : qgetUint64 db name qfrontSeq = _ := h.qgetUint64_of_ne_nil .front hne
  have hback : qgetUint64 db name qbackSeq = _ := h.qgetUint64_of_ne_nil .back hne
  simp only [endSeq] at hfront hback
  have hlast : sliceSeq front (front + items.length - 1) last < 2 ^ 64 := by
    rw [h.sliceSeq_eq hne]
    exact uint64_lt _
  have hfirst : sliceSeq front (front + items.length - 1) first < 2 ^ 64 := by
    rw [h.sliceSeq_eq hne]
    exact uint64_lt _
  have hloop := h.qsliceLoop_records hne
    (sliceSeq front (front + items.length - 1) last + 1 -
      sliceSeq front (front + items.length - 1) first)
    (sliceSeq front (front + items.length - 1) first) (by omega)
  -- a pointer that is not read is not needed either
  have hread : (qslice db name first last) = (0, qsliceLoop db name
      (sliceSeq front (front + items.length - 1) last + 1 -
        sliceSeq front (front + items.length - 1) first)
      (sliceSeq front (front + items.length - 1) first)) := by
    rw [qslice, hfront, hback]
    by_cases hf : 0 ≤ first <;> by_cases hl : 0 ≤ last
    all_goals simp [sliceSeq, hf, hl, not_le.1, not_lt.2]
  rw [procQslice, hread, replyList, if_neg (by simp), hloop, h.sliceSeq_eq hne, h.sliceSeq_eq hne,
    window]

end Db.IsQueue

/-! ## Windows -/

section Windows

variable {front : ℕ} {items : List Bytes}

theorem pointersFrom_of_not_atPointer {seq : ℤ} (h : ¬ AtPointer seq) :
    pointersFrom front items seq = [] := by
  rw [AtPointer, not_or] at h
  rw [pointersFrom, if_neg h.1, if_neg h.2]

theorem pointersFrom_ne_nil {seq : ℤ} (h : AtPointer seq) : pointersFrom front items seq ≠ [] := by
  rcases h with rfl | rfl <;> simp [pointersFrom, qfrontSeq, qbackSeq]

/-- A window that begins in the list. -/
theorem window_of_nonneg {first last : ℤ} (hfirst : front ≤ first) (hlt : first < 2 ^ 64)
    (hlast : 0 ≤ last) (hlt' : last < 2 ^ 64) :
    window front items first last =
      (items.drop (first - front).toNat).take (last + 1 - first).toNat := by
  rw [window, uint64_of_nonneg (by omega) hlt, uint64_of_nonneg hlast hlt', recordsFrom,
    if_pos (by omega)]
  congr 1
  · omega
  · congr 1
    omega

/-- A window that begins in the list and ends below zero is open. -/
theorem window_of_neg {first last : ℤ} (hfirst : front ≤ first) (hlt : first < 2 ^ 64)
    (hlast : last < 0) (hlt' : -2 ^ 63 ≤ last) (hfront : front + items.length < 2 ^ 63) :
    window front items first last = items.drop (first - front).toNat := by
  have hfar := uint64_of_neg hlast hlt'
  rw [window, uint64_of_nonneg (by omega) hlt, recordsFrom, if_pos (by omega),
    show first.toNat - front = (first - front).toNat by omega, List.take_of_length_le]
  rw [List.length_drop]
  omega

/-- Before the list there are pointers at most. -/
theorem recordsFrom_before {seq : ℤ} (hseq : seq < front) (hlt : -2 ^ 63 ≤ seq)
    (hfront : front + items.length < 2 ^ 63) :
    recordsFrom front items (uint64 seq) = pointersFrom front items seq := by
  by_cases hneg : seq < 0
  · -- a negative number wraps around to one beyond all items
    have hfar := uint64_of_neg hneg hlt
    have hnone : pointersFrom front items seq = [] := by
      apply pointersFrom_of_not_atPointer
      simp only [AtPointer, qfrontSeq, qbackSeq]
      omega
    rw [recordsFrom, if_pos (by omega), List.drop_eq_nil_of_le (by omega), hnone]
  · have hcast : ((seq.toNat : ℕ) : ℤ) = seq := by omega
    rw [uint64_of_nonneg (by omega) (by omega), recordsFrom, if_neg (by omega), hcast]

theorem window_before {first : ℤ} (hfirst : first < front) (hlt : -2 ^ 63 ≤ first) (last : ℤ)
    (hfront : front + items.length < 2 ^ 63) :
    window front items first last =
      (pointersFrom front items first).take (uint64 last + 1 - uint64 first) := by
  rw [window, recordsFrom_before hfirst hlt hfront]

/-- Nothing is read before the list if there is no pointer, or the window ends before it. -/
theorem window_before_eq_nil_iff {p q : ℤ} (hp : p < 0) (hp' : -2 ^ 63 ≤ p) (hq : q < 2 ^ 63)
    (hq' : -2 ^ 63 ≤ q) (hfront : front + items.length < 2 ^ 63) :
    window front items (front + p) (front + q) = [] ↔
      (AtPointer (front + p) → 0 ≤ front + q ∧ q < p) := by
  rw [window_before (by omega) (by omega) _ hfront]
  by_cases hpointer : AtPointer (front + p)
  · have hnear : 0 ≤ front + p := by
      simp only [AtPointer, qfrontSeq, qbackSeq] at hpointer
      omega
    rw [List.take_eq_nil_iff, or_iff_left (pointersFrom_ne_nil hpointer), imp_iff_right hpointer,
      uint64_of_nonneg hnear (by omega)]
    by_cases hneg : front + q < 0
    · have hfar := uint64_of_neg hneg (by omega)
      omega
    · rw [uint64_of_nonneg (z := front + q) (by omega) (by omega)]
      omega
  · rw [pointersFrom_of_not_atPointer hpointer, List.take_nil]
    exact ⟨fun _ h => absurd h hpointer, fun _ => rfl⟩

/-- A window that runs from before the list into it. -/
theorem window_into {p q : ℤ} (hp : p < 0) (hp' : -2 ^ 63 ≤ p) (hq : 0 ≤ q) (hq' : q < 2 ^ 63)
    (hlow : qitemMinSeq < front) (hfront : front + items.length < 2 ^ 63) :
    window front items (front + p) (front + q) = pointersFrom front items (front + p) := by
  rw [window_before (by omega) (by omega) _ hfront]
  by_cases hpointer : AtPointer (front + p)
  · have hlength : (pointersFrom front items (front + p)).length ≤ 2 := by
      rcases hpointer with heq | heq <;> rw [heq] <;> simp [pointersFrom, qfrontSeq, qbackSeq]
    simp only [AtPointer, qfrontSeq, qbackSeq] at hpointer
    simp only [qitemMinSeq] at hlow
    apply List.take_of_length_le
    rw [uint64_of_nonneg (z := front + p) (by omega) (by omega),
      uint64_of_nonneg (z := front + q) (by omega) (by omega)]
    omega
  · rw [pointersFrom_of_not_atPointer hpointer, List.take_nil]

/-- The windows that are slices of the list. -/
theorem window_eq_slice_iff {p q : ℤ} (hp : -2 ^ 63 ≤ p ∧ p < 2 ^ 63) (hq : -2 ^ 63 ≤ q ∧ q < 2 ^ 63)
    (hlow : qitemMinSeq < front) (hfront : front + items.length < 2 ^ 63) :
    window front items (front + p) (front + q) = (items.take (q + 1).toNat).drop p.toNat ↔
      (0 ≤ p ∧ (items.length ≤ p ∨ 0 ≤ front + q)) ∨
      (p < 0 ∧ q < 0 ∧ (AtPointer (front + p) → 0 ≤ front + q ∧ q < p)) ∨
      (p < 0 ∧ 0 ≤ q ∧ items.take (q + 1).toNat = pointersFrom front items (front + p)) := by
  by_cases hp0 : 0 ≤ p
  · have hfalse : ¬ p < 0 := by omega
    simp only [hp0, hfalse, true_and, false_and, or_false]
    by_cases hq0 : 0 ≤ front + q
    · rw [window_of_nonneg (by omega) (by omega) hq0 (by omega), List.drop_take,
        show ((front : ℤ) + p - front).toNat = p.toNat by omega,
        show ((front : ℤ) + q + 1 - (front + p)).toNat = (q + 1).toNat - p.toNat by omega]
      simp [hq0]
    · rw [window_of_neg (by omega) (by omega) (by omega) (by omega) hfront,
        show ((front : ℤ) + p - front).toNat = p.toNat by omega,
        show (q + 1).toNat = 0 by omega, List.take_zero, List.drop_nil, List.drop_eq_nil_iff]
      omega
  · have htrue : p < 0 := by omega
    simp only [hp0, htrue, true_and, false_and, false_or]
    rw [show p.toNat = 0 by omega, List.drop_zero]
    by_cases hq0 : q < 0
    · have hfalse : ¬ 0 ≤ q := by omega
      simp only [hq0, hfalse, true_and, false_and, or_false]
      rw [show (q + 1).toNat = 0 by omega, List.take_zero]
      exact window_before_eq_nil_iff htrue hp.1 hq.2 hq.1 hfront
    · have hnonneg : 0 ≤ q := by omega
      simp only [hq0, hnonneg, true_and, false_and, false_or]
      rw [window_into htrue hp.1 hnonneg hq.2 hlow hfront]
      exact eq_comm

theorem place_of_nonneg {index : ℤ} (h : 0 ≤ index) : place items index = index := if_pos h

theorem place_of_neg {index : ℤ} (h : index < 0) : place items index = items.length + index :=
  if_neg (by omega)

/-- An `int64_t` that overflows. -/
theorem bmod_of_overflow {z : ℤ} (hlow : 2 ^ 63 ≤ z) (hhigh : z < 2 ^ 64 + 2 ^ 63) :
    z.bmod (2 ^ 64) = z - 2 ^ 64 := by
  have hcast : (2 : ℤ) ^ 64 = ((2 ^ 64 : ℕ) : ℤ) := by norm_num
  have hfits : (z - 2 ^ 64).bmod (2 ^ 64) = z - 2 ^ 64 :=
    Int.bmod_eq_of_le_mul_two (by omega) (by omega)
  rw [hcast, Int.sub_bmod_right] at hfits
  rw [hfits, hcast]

/-- A limit from `2^63` on. -/
theorem rangeEnd_of_large {first : ℤ} {limit : ℕ} (hlarge : 2 ^ 63 ≤ limit) (hlimit : limit < 2 ^ 64) :
    rangeEnd first limit = -1 := by
  have hneg : (limit : ℤ).bmod (2 ^ 64) = limit - 2 ^ 64 := bmod_of_overflow (by omega) (by omega)
  unfold rangeEnd
  rw [hneg, if_pos (by omega)]

/-- Any other limit. -/
theorem rangeEnd_of_small {first : ℤ} {limit : ℕ} (hsmall : limit < 2 ^ 63) :
    rangeEnd first limit = (first + limit - 1).bmod (2 ^ 64) := by
  have hpos : (limit : ℤ).bmod (2 ^ 64) = limit := Int.bmod_eq_of_le_mul_two (by omega) (by omega)
  unfold rangeEnd
  rw [hpos, if_neg (by omega)]

theorem isInt64_rangeEnd (first : ℤ) (limit : ℕ) : IsInt64 (rangeEnd first limit) := by
  have hlow := Int.le_bmod (x := first + limit - 1) (m := 2 ^ 64) (by decide)
  have hhigh := Int.bmod_lt (x := first + limit - 1) (m := 2 ^ 64) (by decide)
  unfold rangeEnd IsInt64
  generalize (first + limit - 1).bmod (2 ^ 64) = z at *
  split_ifs <;> omega

theorem rangeEnd_of_fits {first : ℤ} {limit : ℕ} (hsmall : limit < 2 ^ 63)
    (hlow : -2 ^ 63 ≤ first + limit - 1) (hhigh : first + limit - 1 < 2 ^ 63) :
    rangeEnd first limit = first + limit - 1 := by
  rw [rangeEnd_of_small hsmall]
  exact Int.bmod_eq_of_le_mul_two (by omega) (by omega)

theorem rangeEnd_of_overflow {first : ℤ} {limit : ℕ} (hsmall : limit < 2 ^ 63)
    (hfirst : first < 2 ^ 63) (hhigh : 2 ^ 63 ≤ first + limit - 1) :
    rangeEnd first limit = first + limit - 1 - 2 ^ 64 := by
  rw [rangeEnd_of_small hsmall]
  exact bmod_of_overflow hhigh (by omega)

/-- A window of the list with more places than items. -/
theorem take_drop_eq {i m n : ℕ} (hm : items.length ≤ i + m) (hn : items.length ≤ i + n) :
    (items.drop i).take m = (items.drop i).take n := by
  rw [List.take_of_length_le (by rw [List.length_drop]; omega),
    List.take_of_length_le (by rw [List.length_drop]; omega)]

variable (hlow : qitemMinSeq < front) (hfront : front + items.length < 2 ^ 63)
  (hpos : 0 < items.length) {first : ℤ} {limit : ℕ} (hfirst : IsInt64 first) (hlimit : limit < 2 ^ 64)

include hlow hfront hpos hfirst hlimit

/-- A range that begins at an index from the front. -/
theorem range_front_iff (hnonneg : 0 ≤ first) :
    window front items (front + first) (front + place items (rangeEnd first limit)) =
        (items.drop first.toNat).take limit ↔
      items.length ≤ first ∨ 2 ^ 63 ≤ limit ∨
        (first + limit - 1 < 2 ^ 63 ∧ (1 ≤ limit ∨ 1 ≤ first)) ∨
        (2 ^ 63 ≤ first + limit - 1 ∧ front + items.length + (first + limit - 1 - 2 ^ 64) < 0) := by
  obtain ⟨-, hfirst⟩ := hfirst
  simp only [qitemMinSeq] at hlow
  have hplace : ((front : ℤ) + first - front).toNat = first.toNat := by omega
  by_cases hlarge : 2 ^ 63 ≤ limit
  · rw [rangeEnd_of_large hlarge hlimit, place_of_neg (by omega),
      window_of_nonneg (by omega) (by omega) (by omega) (by omega), hplace]
    exact iff_of_true (take_drop_eq (by omega) (by omega)) (Or.inr (Or.inl hlarge))
  · by_cases hover : first + limit - 1 < 2 ^ 63
    · by_cases hzero : 0 ≤ first + limit - 1
      · rw [rangeEnd_of_fits (by omega) (by omega) hover, place_of_nonneg hzero,
          window_of_nonneg (by omega) (by omega) (by omega) (by omega), hplace,
          show ((front : ℤ) + (first + limit - 1) + 1 - (front + first)).toNat = limit by omega]
        exact iff_of_true rfl (by omega)
      · -- `qrange 0 0`: the end is -1, which means the last item
        obtain ⟨rfl, rfl⟩ : first = 0 ∧ limit = 0 := by omega
        rw [rangeEnd_of_fits (by omega) (by omega) (by omega), place_of_neg (by omega),
          window_of_nonneg (by omega) (by omega) (by omega) (by omega), hplace]
        refine iff_of_false ?_ (by omega)
        rw [List.take_zero, List.take_eq_nil_iff, List.drop_eq_nil_iff]
        omega
    · rw [rangeEnd_of_overflow (by omega) (by omega) (by omega), place_of_neg (by omega)]
      by_cases hneg : front + items.length + (first + limit - 1 - 2 ^ 64) < 0
      · rw [window_of_neg (by omega) (by omega) (by omega) (by omega) hfront, hplace,
          List.take_of_length_le (by rw [List.length_drop]; omega)]
        exact iff_of_true rfl (by omega)
      · have hnone : ((front : ℤ) + (items.length + (first + limit - 1 - 2 ^ 64)) + 1 -
            (front + first)).toNat = 0 := by omega
        rw [window_of_nonneg (by omega) (by omega) (by omega) (by omega), hplace, hnone,
          List.take_zero, @eq_comm _ [], List.take_eq_nil_iff, List.drop_eq_nil_iff]
        omega

omit hfirst in
/-- A range that begins at an index from the back. -/
theorem range_back_iff (hneg : first < 0) (hinside : 0 ≤ items.length + first) :
    window front items (front + (items.length + first))
        (front + place items (rangeEnd first limit)) =
        (items.drop (items.length + first).toNat).take limit ↔
      2 ^ 63 ≤ limit ∨ first + limit ≤ 0 ∨ items.length ≤ first + limit := by
  have hplace : ((front : ℤ) + (items.length + first) - front).toNat =
      (items.length + first).toNat := by omega
  simp only [qitemMinSeq] at hlow
  by_cases hlarge : 2 ^ 63 ≤ limit
  · rw [rangeEnd_of_large hlarge hlimit, place_of_neg (by omega),
      window_of_nonneg (by omega) (by omega) (by omega) (by omega), hplace]
    exact iff_of_true (take_drop_eq (by omega) (by omega)) (Or.inl hlarge)
  · rw [rangeEnd_of_fits (by omega) (by omega) (by omega)]
    by_cases hend : 0 ≤ first + limit - 1
    · -- the end counts from the front although the beginning counts from the back
      rw [place_of_nonneg hend, window_of_nonneg (by omega) (by omega) (by omega) (by omega), hplace,
        List.take_eq_take_iff, List.length_drop]
      omega
    · rw [place_of_neg (by omega), window_of_nonneg (by omega) (by omega) (by omega) (by omega),
        hplace, show ((front : ℤ) + (items.length + (first + limit - 1)) + 1 -
          (front + (items.length + first))).toNat = limit by omega]
      exact iff_of_true rfl (by omega)

/-- A range that begins before the list. -/
theorem range_before_iff (hneg : items.length + first < 0) :
    window front items (front + (items.length + first))
        (front + place items (rangeEnd first limit)) = [] ↔
      limit = 0 ∨ ¬ AtPointer (front + (items.length + first)) := by
  obtain ⟨hfirst, -⟩ := hfirst
  have hbounds : -2 ^ 63 ≤ place items (rangeEnd first limit) ∧
      place items (rangeEnd first limit) < 2 ^ 63 := by
    have hend := isInt64_rangeEnd first limit
    rw [IsInt64] at hend
    rw [place]
    split_ifs <;> omega
  rw [window_before_eq_nil_iff hneg (by omega) hbounds.2 hbounds.1 hfront, or_iff_not_imp_right, not_not]
  apply imp_congr_right
  intro hpointer
  -- so close to the pointers nothing overflows
  have hnear : 2 ≤ front + (items.length + first) := by
    simp only [AtPointer, qfrontSeq, qbackSeq] at hpointer
    omega
  by_cases hlarge : 2 ^ 63 ≤ limit
  · rw [rangeEnd_of_large hlarge hlimit, place_of_neg (by omega)]
    omega
  · rw [rangeEnd_of_fits (by omega) (by omega) (by omega)]
    by_cases hend : 0 ≤ first + limit - 1
    · rw [place_of_nonneg hend]
      omega
    · rw [place_of_neg (by omega)]
      omega

/-- The ranges that are those of the list. -/
theorem window_eq_range_iff (hne : items ≠ []) :
    window front items (front + place items first) (front + place items (rangeEnd first limit)) =
      itemsFrom items first limit ↔ QrangeRight front items first limit := by
  rw [QrangeRight, itemsFrom]
  by_cases hnonneg : 0 ≤ first
  · have hplace : place items first = first := place_of_nonneg hnonneg
    have hfalse : ¬ first < 0 := by omega
    simp only [hne, hplace, hnonneg, hfalse, if_true, true_and, false_and, false_or, or_false]
    exact range_front_iff hlow hfront hpos hfirst hlimit hnonneg
  · have hneg : first < 0 := by omega
    have hplace : place items first = items.length + first := place_of_neg hneg
    by_cases hinside : 0 ≤ items.length + first
    · have hfalse : ¬ items.length + first < 0 := by omega
      simp only [hne, hplace, hnonneg, hneg, hinside, hfalse, if_true, true_and, false_and, false_or,
        or_false]
      exact range_back_iff hlow hfront hpos hlimit hneg hinside
    · have htrue : items.length + first < 0 := by omega
      simp only [hne, hplace, hnonneg, hinside, htrue, if_false, true_and, false_and, and_false,
        false_or]
      exact range_before_iff hlow hfront hpos hfirst hlimit htrue

end Windows

/-! ## Indices of a queue -/

namespace Db.IsQueue

variable {db : Db} {name : Bytes} {front : ℕ} {items : List Bytes}

theorem itemReply_inj {x y : Option Bytes} (h : itemReply x = itemReply y) : x = y := by
  cases x <;> cases y <;> simp_all [itemReply]

/-- What `qget` returns. -/
theorem procQget_eq (h : db.IsQueue name front items) (hne : items ≠ []) (index : ℤ) :
    procQget db name index =
      itemReply (recordsFrom front items (uint64 (front + place items index))).head? := by
  obtain ⟨-, -, hpos⟩ := h.front_lt hne
  have hfront : qgetUint64 db name qfrontSeq = _ := h.qgetUint64_of_ne_nil .front hne
  have hback : qgetUint64 db name qbackSeq = _ := h.qgetUint64_of_ne_nil .back hne
  simp only [endSeq] at hfront hback
  have hget : qget db name index =
      match (recordsFrom front items (uint64 (front + place items index))).head? with
      | none => (0, none)
      | some item => (1, some item) := by
    rw [← h.qgetBySeq_eq hne (uint64_lt _), qget, place]
    split_ifs with hindex
    · rw [hfront]
    · rw [hback]
      have hseq : ((front + items.length - 1 : ℕ) : ℤ) + (index + 1) =
          front + (items.length + index) := by omega
      simp only [hseq]
  rw [procQget, hget]
  cases (recordsFrom front items (uint64 (front + place items index))).head? with
  | none => rfl
  | some item => rfl

theorem procQget_eq_iff (h : db.IsQueue name front items) {index : ℤ} (hindex : IsInt64 index) :
    procQget db name index = itemReply (itemAt items index) ↔ QgetRight front items index := by
  obtain ⟨hindex, hindex'⟩ := hindex
  rw [QgetRight]
  rcases eq_or_ne items [] with rfl | hne
  · have hpointer : ∀ e : QueueEnd, qgetUint64 db name e.seq = .notFound := fun e => by
      rw [h.qgetUint64_eq, if_pos rfl]
    have hnone : qget db name index = (0, none) := by
      have hfront := hpointer .front
      have hback := hpointer .back
      simp only [QueueEnd.seq] at hfront hback
      rw [qget]
      split_ifs
      · rw [hfront]
      · rw [hback]
    rw [procQget, hnone]
    simp [itemAt, itemReply, replyGet]
  · obtain ⟨hlow, hhigh, hpos⟩ := h.front_lt hne
    simp only [qitemMinSeq] at hlow
    have hplace : -2 ^ 63 ≤ place items index ∧ place items index < 2 ^ 63 := by
      rw [place]
      split_ifs <;> omega
    rw [h.procQget_eq hne, or_iff_right hne, itemAt]
    split_ifs with hinside
    · -- the numbers from the front on are those of items
      rw [uint64_of_nonneg (by omega) (by omega), recordsFrom, if_pos (by omega), List.head?_drop,
        show ((front : ℤ) + place items index).toNat - front = (place items index).toNat by omega]
      refine iff_of_true rfl ?_
      simp only [AtPointer, qfrontSeq, qbackSeq]
      omega
    · rw [recordsFrom_before (by omega) (by omega) hhigh]
      constructor
      · intro heq hpointer
        have hhead := itemReply_inj heq
        rw [List.head?_eq_none_iff] at hhead
        exact pointersFrom_ne_nil hpointer hhead
      · intro hpointer
        rw [pointersFrom_of_not_atPointer hpointer]
        rfl

theorem procQslice_eq_iff (h : db.IsQueue name front items) {first last : ℤ} (hfirst : IsInt64 first)
    (hlast : IsInt64 last) :
    procQslice db name first last = ascii "ok" :: itemsBetween items first last ↔
      QsliceRight front items first last := by
  rw [QsliceRight]
  rcases eq_or_ne items [] with rfl | hne
  · rw [h.procQslice_nil]
    simp [itemsBetween]
  · obtain ⟨hlow, hhigh, hpos⟩ := h.front_lt hne
    have hplace : ∀ {index : ℤ}, IsInt64 index →
        -2 ^ 63 ≤ place items index ∧ place items index < 2 ^ 63 := by
      rintro index ⟨hindex, hindex'⟩
      rw [place]
      split_ifs <;> omega
    rw [h.procQslice_eq hne, List.cons_inj_right, or_iff_right hne, itemsBetween]
    exact window_eq_slice_iff (hplace hfirst) (hplace hlast) hlow hhigh

theorem procQrange_eq_iff (h : db.IsQueue name front items) {first : ℤ} {limit : ℕ}
    (hfirst : IsInt64 first) (hlimit : limit < 2 ^ 64) :
    procQrange db name first limit = ascii "ok" :: itemsFrom items first limit ↔
      QrangeRight front items first limit := by
  rcases eq_or_ne items [] with rfl | hne
  · rw [procQrange, h.procQslice_nil]
    simp [itemsFrom, QrangeRight]
  · obtain ⟨hlow, hhigh, hpos⟩ := h.front_lt hne
    rw [procQrange, h.procQslice_eq hne, List.cons_inj_right]
    exact window_eq_range_iff hlow hhigh hpos hfirst hlimit hne

end Db.IsQueue

/-- **Indices agree with the list** exactly as `QgetRight`, `QsliceRight` and `QrangeRight` say, and
`qset` always: after any operations, for every queue with its list and all 64-bit indices, `qget`
returns the item at the index, `qset` replaces that item and refuses any other index, `qslice` returns
the items between two indices and `qrange` at most `limit` items from an index on. -/
theorem queue_indexing (steps : List StoreStep) (name : Bytes) :
    let db := steps.foldl Db.step OrderedMap.empty
    let items := queueItems db name
    let front := queueFront db name
    (∀ index, IsInt64 index →
      (procQget db name index = itemReply (itemAt items index) ↔ QgetRight front items index)) ∧
    (∀ index item, IsInt64 index →
      queueItems (procQset db name index item).1 name =
          (if 0 ≤ place items index ∧ place items index < items.length
            then items.set (place items index).toNat item else items) ∧
        (procQset db name index item).2 =
          if 0 ≤ place items index ∧ place items index < items.length
            then [ascii "ok"] else [ascii "error", ascii "index out of range"]) ∧
    (∀ first last, IsInt64 first → IsInt64 last →
      (procQslice db name first last = ascii "ok" :: itemsBetween items first last ↔
        QsliceRight front items first last)) ∧
    ∀ first limit, IsInt64 first → limit < 2 ^ 64 →
      (procQrange db name first limit = ascii "ok" :: itemsFrom items first limit ↔
        QrangeRight front items first limit) := by
  intro db items front
  -- every reachable store holds the queue as a list; `front` is its own when the list is not empty
  have h : db.IsQueue name front items := by
    obtain ⟨f, is, hq⟩ := (isStore_run steps).queues name
    have hitems : items = is := hq.queueItems_eq
    rw [hitems]
    rcases eq_or_ne is [] with rfl | hne
    · exact hq.nil_front front
    · have hfront : front = f := hq.queueFront_eq hne
      rw [hfront]
      exact hq
  refine ⟨fun index hindex => h.procQget_eq_iff hindex, ?_,
    fun first last hfirst hlast => h.procQslice_eq_iff hfirst hlast,
    fun first limit hfirst hlimit => h.procQrange_eq_iff hfirst hlimit⟩
  intro index item _
  have hdoes := h.does_qset index item
  obtain ⟨front', hq⟩ := hdoes.list
  -- a negative index counts from the end, so it is in range from minus the length on
  have hplace : (0 ≤ place items index ∧ place items index < items.length) ↔
      (-(items.length : ℤ) ≤ index ∧ index < items.length) := by
    rw [place]
    split_ifs <;> omega
  have hposition : (place items index).toNat = indexPosition items index := by
    rw [place, indexPosition]
    split_ifs <;> rfl
  rw [hq.queueItems_eq, hdoes.reply, QueueCommand.specSet, hposition]
  simp only [hplace]
  split_ifs
  · exact ⟨rfl, rfl⟩
  · exact ⟨rfl, rfl⟩

/-- One item in a queue. -/
def oneItem : List StoreStep := [.write (.qpush (ascii "q") (ascii "x") .back) .sync]

/-- No item is asked for, and the item is returned: the last index is 0 + 0 - 1. -/
theorem qrange_zero_returns_item :
    procQrange (oneItem.foldl Db.step OrderedMap.empty) (ascii "q") 0 0 = [ascii "ok", ascii "x"] ∧
      itemsFrom (queueItems (oneItem.foldl Db.step OrderedMap.empty) (ascii "q")) 0 0 = [] := by
  constructor <;> decide +kernel

end Ssdb
