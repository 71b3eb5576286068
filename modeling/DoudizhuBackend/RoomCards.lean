/-
# Room cards sent from user to user

`gm_sendRoomCard.php` reads the sender and the receiver, checks that the sender has enough cards, and
writes the two new numbers one after the other, each computed from the copy that was read first.

`transfer_conserves_iff` says exactly when this is a transfer: the cards of all users together stay the
same, nobody gets below zero, no record comes into being, and a request that is refused changes
nothing.  It is none if the sender sends to himself, if there is no sender, and if the number of
cards is negative and the receiver does not have that many.  This is about plain numbers of cards: on
larger ones PHP overflows to doubles, and rounds these when it writes them.
-/
import DoudizhuBackend.Players
import DoudizhuBackend.UserRecords
import Mathlib.Data.Nat.Digits.Defs
import Mathlib.Tactic.Linarith

open Php GameData Players

/-! ## Sums over association lists -/

section SumInsert

variable {α β : Type} [DecidableEq α] (f : β → ℚ)

theorem List.sum_kerase (k : α) {l : List (Sigma fun _ : α => β)} (hl : l.NodupKeys) :
    ((l.kerase k).map fun e => f e.2).sum + (l.dlookup k).elim 0 f = (l.map fun e => f e.2).sum := by
  induction l with
  | nil => simp
  | cons e l ih =>
      rw [List.nodupKeys_cons] at hl
      obtain ⟨k', v⟩ := e
      by_cases h : k = k'
      · subst h
        simp [add_comm]
      · have hrest := ih hl.2
        rw [List.kerase_cons_ne h, List.dlookup_cons_ne _ _ h, List.map_cons, List.map_cons,
          List.sum_cons, List.sum_cons]
        linarith

/-- A new entry takes the place of the old one in the sum. -/
theorem AList.sum_insert (l : AList fun _ : α => β) (k : α) (v : β) :
    ((l.insert k v).entries.map fun e => f e.2).sum + (l.lookup k).elim 0 f =
      (l.entries.map fun e => f e.2).sum + f v := by
  have herase := List.sum_kerase f k l.nodupKeys
  rw [AList.entries_insert, List.map_cons, List.sum_cons]
  rw [show l.lookup k = l.entries.dlookup k from rfl]
  linarith

end SumInsert

/-! ## Numbers as keys -/

/-- A number of at most 60 digits can be a key. -/
theorem storableKey_toString {n : ℕ} (h : n < 10 ^ 60) : storableKey (toString n) := by
  have hlen : (toString n).length ≤ 60 := Nat.repr_length n 60 (by decide) h
  have hsize := String.utf8ByteSize_ofList_le (toString n).toList
  rw [String.ofList_toList, String.length_toList] at hsize
  refine ⟨?_, by omega⟩
  intro hempty
  have hpos : 0 < (toString n).length := Nat.length_repr_pos
  rw [hempty] at hpos
  exact absurd hpos (by decide)

namespace RoomCards

/-! ## What a transfer must keep -/

/-- The room cards of a record. -/
def cards (r : Option JsonObject) : ℚ := r.elim 0 fun o => (o.get "roomCardNum").toNum

/-- The room cards of all users. -/
def totalCards (s : Store) : ℚ := ((s.hash .user).entries.map fun e => cards e.2).sum

/-- Between `s` and `s'` room cards moved between the users `ks` and `kr`. -/
structure Transfers (ks kr : String) (s s' : Store) : Prop where
  total : totalCards s' = totalCards s
  nonneg : ∀ k, 0 ≤ cards (s.record k) → 0 ≤ cards (s'.record k)
  created : ∀ k, s.record k = none → s'.record k = none
  others : ∀ k, k ≠ ks → k ≠ kr → s'.record k = s.record k

/-- The two stores hold the same. -/
structure SameStore (s s' : Store) : Prop where
  hash : ∀ h k, (s'.hash h).lookup k = (s.hash h).lookup k
  kv : s'.kv = s.kv
  kvJson : s'.kvJson = s.kvJson
  queue : s'.queue = s.queue
  table : s'.table = s.table

/-- The user that a number belongs to; nobody is `null`. -/
def receiverOf (s : Store) (msg : JsonObject) : Value :=
  ((s.hash .userno2unionid).lookup (msg.get "receiver_userno").text).elim .null .str

/-- The request passes the checks of `gm_sendRoomCard.php`. -/
def granted (s : Store) (msg : JsonObject) : Bool :=
  (msg.get "sender_unionid").toBool && (s.record (userKey (receiverOf s msg))).isSome &&
    decide (0 ≤ cards (s.record (userKey (msg.get "sender_unionid"))) - (msg.get "room_card_num").toNum)

/-- The entry of `userno2unionid` that `getUser` makes at its turn for a record without a number. -/
def drawnEntry (w : World) (s : Store) (tick : ℕ) (u : Value) : Option (String × String) :=
  (s.record (userKey u)).bind fun o =>
    if o.isset "userno" then none
    else some (toString (1000 + w.rand tick % (99999 - 1000 + 1)), (o.get "unionid").text)

/-- The entry is there already. -/
def Entered (s : Store) (e : Option (String × String)) : Prop :=
  ∀ no u, e = some (no, u) → (s.hash .userno2unionid).lookup no = some u

/-- The numbers that the two reads of a request draw are entered already (where both draw the same
number, the entry for the receiver counts). -/
def DrawsEntered (w : World) (s : Store) (msg : JsonObject) : Prop :=
  let sender := drawnEntry w s s.tick (msg.get "sender_unionid")
  let receiver := drawnEntry w s (if sender.isSome then s.tick + 1 else s.tick) (receiverOf s msg)
  Entered s receiver ∧ (Entered s sender ∨ sender.map Prod.fst = receiver.map Prod.fst)

/-- The cards of the sender and of the receiver and the cards sent are plain numbers. -/
def PlainCards (s : Store) (msg : JsonObject) : Prop :=
  IsPlain (cards (s.record (userKey (msg.get "sender_unionid")))) ∧
    IsPlain (cards (s.record (userKey (receiverOf s msg)))) ∧ IsPlain (msg.get "room_card_num").toNum

instance (s : Store) (msg : JsonObject) : Decidable (PlainCards s msg) := inferInstanceAs (Decidable (_ ∧ _))

/-- What a granted request must keep to: nobody sends to himself, the sender has a record, the receiver
of a negative number of cards has that many, and the number of the receiver is known (a record with an
empty unionid is found for an unknown number too, but not written). -/
def Proper (s : Store) (msg : JsonObject) : Prop :=
  let ks := userKey (msg.get "sender_unionid")
  let kr := userKey (receiverOf s msg)
  let num := (msg.get "room_card_num").toNum
  if receiverOf s msg = .null then if (s.record ks).isSome then num = 0 else ¬ storableKey ks
  else if ks = kr then num = 0
  else if (s.record ks).isSome then 0 ≤ cards (s.record kr) → 0 ≤ cards (s.record kr) + num
  else ¬ storableKey ks ∧ num = 0

variable (w : World) (s : Store)

/-! ## One write -/

/-- The sum after a record is written. -/
theorem totalCards_hset {k : String} (hk : storableKey k) (r : Option JsonObject) :
    totalCards (s.hset .user k r) + cards (s.record k) = totalCards s + cards r := by
  have hsum := AList.sum_insert cards (s.hash .user) k r
  have hold : ((s.hash .user).lookup k).elim 0 cards = cards (s.record k) := by
    unfold Store.record
    cases (s.hash .user).lookup k <;> rfl
  rw [hold] at hsum
  rw [totalCards, Store.hset_hash_self hk]
  exact hsum

theorem cards_fieldsAt (k : String) : ((s.fieldsAt k).get "roomCardNum").toNum = cards (s.record k) := by
  unfold Store.fieldsAt cards
  cases s.record k <;> rfl

/-- The record under `k` is written with `n` cards. -/
structure Written (k : String) (n : ℚ) (s s' : Store) : Prop where
  others : ∀ k', k' ≠ k → s'.record k' = s.record k'
  isSome : (s'.record k).isSome = true
  cards : cards (s'.record k) = n
  total : totalCards s' + RoomCards.cards (s.record k) = totalCards s + n

/-- No record is written. -/
structure Kept (s s' : Store) : Prop where
  record : ∀ k, s'.record k = s.record k
  total : totalCards s' = totalCards s

theorem Kept.of_hash {s s' : Store} (h : s'.hash .user = s.hash .user) : Kept s s' :=
  ⟨fun _ => Store.record_congr h, by rw [totalCards, h, totalCards]⟩

theorem Kept.written {k : String} {n : ℚ} {s s' s'' : Store} (h : Kept s s') (h' : Written k n s' s'') :
    Written k n s s'' := by
  refine ⟨fun k' hk' => (h'.others k' hk').trans (h.record k'), h'.isSome, h'.cards, ?_⟩
  rw [← h.record, ← h.total]
  exact h'.total

variable {u : Value} (n : ℚ)

theorem roomCardData_get : (roomCardData u n).get "unionid" = u := by
  simp [roomCardData, Fields.get_ofList_cons]

theorem roomCardData_ok (hu : Fields.encodable u = true) : (roomCardData u n).Encodable :=
  Fields.encodable_ofList (by simpa [Fields.encodable] using hu)

theorem roomCardData_isset (hset : u ≠ .null) : (roomCardData u n).isset "unionid" = true := by
  rw [Fields.isset_eq_true, roomCardData_get]
  exact hset

/-- The hash of the users after new room cards are written. -/
theorem updateUser_roomCards_hash (hset : u ≠ .null) :
    ((updateUser (roomCardData u n)).run (exec w) s).2.hash .user =
      (s.hset .user (userKey u)
        (((getUser u).run (exec w) s).1.merge (roomCardData u n)).jsonEncode).hash .user := by
  have hisset := roomCardData_isset n hset
  have hread := getUser_hash w s u (h := .user) (by decide)
  rw [updateUser_run w s _ hisset, updateUser2_hash, if_pos hisset, roomCardData_get]
  unfold Store.hset
  split
  · simp only [Function.update_self, hread]
  · exact hread

/-- New room cards are written if the user can have a record. -/
theorem updateUser_written (hu : Fields.encodable u = true) (hset : u ≠ .null)
    (hk : storableKey (userKey u)) :
    Written (userKey u) n s ((updateUser (roomCardData u n)).run (exec w) s).2 := by
  have hhash := updateUser_roomCards_hash w s n hset
  have hfound := getUser_found w s u
  set user := ((getUser u).run (exec w) s).1 with huser
  have henc : (user.merge (roomCardData u n)).Encodable :=
    hfound.encodable.merge (roomCardData_ok n hu)
  have hcards : cards (user.merge (roomCardData u n)).jsonEncode = n := by
    rw [Fields.jsonEncode_of_encodable henc]
    show ((user.merge (roomCardData u n)).get "roomCardNum").toNum = n
    rw [Fields.get_merge_of_mem (by simp [roomCardData, Fields.mem_ofList])]
    simp [roomCardData, Fields.get_ofList_cons]
  constructor
  · intro k' hk'
    rw [Store.record_congr hhash, Store.record_hset, if_neg fun h => hk' h.1]
  · rw [Store.record_congr hhash, Store.record_hset, if_pos ⟨rfl, hk⟩,
      Fields.jsonEncode_of_encodable henc]
    rfl
  · rw [Store.record_congr hhash, Store.record_hset, if_pos ⟨rfl, hk⟩]
    exact hcards
  · have hsum := totalCards_hset s hk (user.merge (roomCardData u n)).jsonEncode
    rw [hcards] at hsum
    rw [totalCards, hhash]
    exact hsum

/-- Without a unionid, or with one that is too long, nothing is written. -/
theorem updateUser_kept (h : u = .null ∨ ¬ storableKey (userKey u)) :
    Kept s ((updateUser (roomCardData u n)).run (exec w) s).2 := by
  by_cases hset : u = .null
  · rw [updateUser_run_of_unset w s _ (by simp [Fields.isset, roomCardData_get, hset])]
    exact Kept.of_hash rfl
  · apply Kept.of_hash
    rw [updateUser_roomCards_hash w s n hset, Store.hset_of_not_storable (h.resolve_left hset)]

/-! ## Two writes -/

section Transfer

variable {s s₁ s₂ : Store} {ks kr : String} {num : ℚ}

/-- To somebody else. -/
theorem transfers_of_ne (hne : ks ≠ kr) (hr : (s.record kr).isSome = true)
    (henough : 0 ≤ cards (s.record ks) - num) (h₁ : Written ks (cards (s.record ks) - num) s s₁)
    (h₂ : Written kr (cards (s.record kr) + num) s₁ s₂) :
    Transfers ks kr s s₂ ↔
      (s.record ks).isSome = true ∧ (0 ≤ cards (s.record kr) → 0 ≤ cards (s.record kr) + num) := by
  have hs : s₂.record ks = s₁.record ks := h₂.others ks hne
  have ht₂ := h₂.total
  rw [h₁.others kr hne.symm] at ht₂
  constructor
  · intro h
    refine ⟨?_, fun hnonneg => h₂.cards ▸ h.nonneg kr hnonneg⟩
    by_contra hnone
    have hcreated := h.created ks (by simpa using hnone)
    rw [hs] at hcreated
    have hsome := h₁.isSome
    rw [hcreated] at hsome
    cases hsome
  · rintro ⟨hsome, hnonneg⟩
    refine ⟨?_, fun k hk => ?_, fun k hk => ?_, fun k hks hkr => ?_⟩
    · have ht₁ := h₁.total
      linarith
    · by_cases hkr : k = kr
      · rw [hkr, h₂.cards]
        exact hnonneg (hkr ▸ hk)
      · rw [h₂.others k hkr]
        by_cases hks : k = ks
        · rw [hks, h₁.cards]
          exact henough
        · rw [h₁.others k hks]
          exact hk
    · have hkr : k ≠ kr := by rintro rfl; rw [hk] at hr; cases hr
      have hks : k ≠ ks := by rintro rfl; rw [hk] at hsome; cases hsome
      rw [h₂.others k hkr, h₁.others k hks, hk]
    · rw [h₂.others k hkr, h₁.others k hks]

/-- One write changes the number of all cards by the new ones. -/
theorem transfers_of_written {k : String} {n : ℚ} (hk : k = ks ∨ k = kr)
    (h : Written k (cards (s.record k) + n) s s₂) :
    Transfers ks kr s s₂ ↔ (s.record k).isSome = true ∧ n = 0 := by
  have ht := h.total
  constructor
  · intro htransfers
    refine ⟨?_, ?_⟩
    · by_contra hnone
      have hcreated := htransfers.created k (by simpa using hnone)
      have hsome := h.isSome
      rw [hcreated] at hsome
      cases hsome
    · have htotal := htransfers.total
      linarith
  · rintro ⟨hsome, rfl⟩
    rw [add_zero] at h ht
    refine ⟨by linarith, fun k' hk' => ?_, fun k' hk' => ?_, fun k' hks hkr => ?_⟩
    · by_cases hkk : k' = k
      · rw [hkk, h.cards, ← hkk]
        exact hk'
      · rw [h.others k' hkk]
        exact hk'
    · have hkk : k' ≠ k := by rintro rfl; rw [hk'] at hsome; cases hsome
      rw [h.others k' hkk, hk']
    · have hkk : k' ≠ k := by rcases hk with rfl | rfl <;> assumption
      rw [h.others k' hkk]

theorem transfers_of_kept (h : Kept s s₂) : Transfers ks kr s s₂ :=
  ⟨h.total, fun k hk => by rw [h.record]; exact hk, fun k hk => by rw [h.record]; exact hk,
    fun k _ _ => h.record k⟩

/-- The second of two writes of one record takes the place of the first. -/
theorem Written.twice {k : String} {n m : ℚ} (h₁ : Written k n s s₁) (h₂ : Written k m s₁ s₂) :
    Written k m s s₂ := by
  refine ⟨fun k' hk' => (h₂.others k' hk').trans (h₁.others k' hk'), h₂.isSome, h₂.cards, ?_⟩
  have ht₁ := h₁.total
  have ht₂ := h₂.total
  rw [h₁.cards] at ht₂
  linarith

end Transfer

/-! ## The two reads -/

/-- The stores after an entry of `userno2unionid` is made for a drawn number. -/
def enter (s : Store) (e : Option (String × String)) : Store :=
  e.elim s fun e => s.nextTick.hset .userno2unionid e.1 e.2

theorem getUser_enter (u : Value) :
    ((getUser u).run (exec w) s).2 = enter s (drawnEntry w s s.tick u) := by
  unfold getUser drawnEntry Store.record
  simp only [Prog.run_bind, Prog.run_call, exec]
  cases ((s.hash .user).lookup (userKey u)).join with
  | none => rfl
  | some o =>
      show (Prog.run (exec w) (if o.isset "userno" then _ else _) s).2 = _
      by_cases hset : o.isset "userno" = true
      · simp only [hset, if_true, Option.bind_some]
        rfl
      · simp only [hset, Option.bind_some]
        rfl

theorem storableKey_drawn {tick : ℕ} {e : String × String} (h : drawnEntry w s tick u = some e) :
    storableKey e.1 := by
  unfold drawnEntry at h
  cases hrecord : s.record (userKey u) with
  | none => rw [hrecord] at h; cases h
  | some o =>
      rw [hrecord, Option.bind_some] at h
      split at h
      · cases h
      · cases h
        apply storableKey_toString
        have hlt := Nat.mod_lt (w.rand tick) (show 0 < 99999 - 1000 + 1 by decide)
        omega

theorem drawnEntry_congr {s' : Store} (h : ∀ k, s'.record k = s.record k) (tick : ℕ) :
    drawnEntry w s' tick u = drawnEntry w s tick u := by
  rw [drawnEntry, h, drawnEntry]

theorem enter_tick (e : Option (String × String)) :
    (enter s e).tick = if e.isSome then s.tick + 1 else s.tick := by
  cases e with
  | none => rfl
  | some e =>
      show (s.nextTick.hset .userno2unionid e.1 e.2).tick = s.tick + 1
      unfold Store.hset
      split <;> rfl

/-- What the map holds after an entry. -/
theorem enter_lookup {e : Option (String × String)} (he : ∀ x, e = some x → storableKey x.1)
    (no : String) :
    ((enter s e).hash .userno2unionid).lookup no =
      if e.map Prod.fst = some no then e.map Prod.snd else (s.hash .userno2unionid).lookup no := by
  cases e with
  | none => rfl
  | some e =>
      show ((s.nextTick.hset .userno2unionid e.1 e.2).hash .userno2unionid).lookup no = _
      by_cases hno : no = e.1
      · subst hno
        rw [Store.lookup_hset_self (he e rfl)]
        simp
      · rw [Store.lookup_hset_of_ne hno, if_neg (by simpa using Ne.symm hno)]
        rfl

/-- Two entries leave the map as it is exactly if the second is there already, and the first too
unless the second takes its place. -/
theorem enter_enter_iff {e₁ e₂ : Option (String × String)} (h₁ : ∀ x, e₁ = some x → storableKey x.1)
    (h₂ : ∀ x, e₂ = some x → storableKey x.1) :
    (∀ no, ((enter (enter s e₁) e₂).hash .userno2unionid).lookup no =
        (s.hash .userno2unionid).lookup no) ↔
      Entered s e₂ ∧ (Entered s e₁ ∨ e₁.map Prod.fst = e₂.map Prod.fst) := by
  simp only [enter_lookup _ h₂, enter_lookup _ h₁]
  constructor
  · intro h
    refine ⟨fun no u he => ?_, ?_⟩
    · have hno := h no
      rw [he] at hno
      simpa using hno.symm
    · by_cases hsame : e₁.map Prod.fst = e₂.map Prod.fst
      · exact Or.inr hsame
      · refine Or.inl fun no u he => ?_
        have hno := h no
        rw [he] at hno hsame
        rw [if_neg fun h => hsame (by rw [h]; rfl)] at hno
        simpa using hno.symm
  · rintro ⟨hreceiver, hsender⟩ no
    by_cases hno₂ : e₂.map Prod.fst = some no
    · rw [if_pos hno₂]
      obtain ⟨⟨_, u⟩, rfl, rfl⟩ := Option.map_eq_some_iff.mp hno₂
      exact (hreceiver _ u rfl).symm
    · rw [if_neg hno₂]
      by_cases hno₁ : e₁.map Prod.fst = some no
      · rw [if_pos hno₁]
        have hentered := hsender.resolve_right fun hsame => hno₂ (hsame ▸ hno₁)
        obtain ⟨⟨_, u⟩, rfl, rfl⟩ := Option.map_eq_some_iff.mp hno₁
        exact (hentered _ u rfl).symm
      · rw [if_neg hno₁]

/-- The stores after the two reads. -/
def afterReads (w : World) (s : Store) (msg : JsonObject) : Store :=
  ((getUser (receiverOf s msg)).run (exec w) ((getUser (msg.get "sender_unionid")).run (exec w) s).2).2

variable (msg : JsonObject)

theorem afterReads_hash {h : HashName} (hh : h ≠ .userno2unionid) :
    (afterReads w s msg).hash h = s.hash h :=
  (getUser_hash w _ _ hh).trans (getUser_hash w s _ hh)

/-- **The reads of a request.**  They change nothing exactly if the drawn numbers are entered
already. -/
theorem sameStore_afterReads : SameStore s (afterReads w s msg) ↔ DrawsEntered w s msg := by
  have hreads : afterReads w s msg =
      enter (enter s (drawnEntry w s s.tick (msg.get "sender_unionid")))
        (drawnEntry w s (if (drawnEntry w s s.tick (msg.get "sender_unionid")).isSome
          then s.tick + 1 else s.tick) (receiverOf s msg)) := by
    rw [afterReads, getUser_enter, drawnEntry_congr w s (getUser_record w s _), getUser_enter, enter_tick]
  unfold DrawsEntered
  refine Iff.trans ?_ (enter_enter_iff s (fun x hx => storableKey_drawn w s hx)
    fun x hx => storableKey_drawn w s hx)
  rw [← hreads]
  constructor
  · exact fun h no => h.hash .userno2unionid no
  · intro h
    refine ⟨fun name no => ?_, ?_, ?_, ?_, ?_⟩
    · by_cases hname : name = .userno2unionid
      · subst hname
        exact h no
      · rw [afterReads_hash w s msg hname]
    · exact ((getUser_writes _).run_kv (by simp) _).trans ((getUser_writes _).run_kv (by simp) s)
    · exact ((getUser_writes _).run_kvJson (by simp) _).trans ((getUser_writes _).run_kvJson (by simp) s)
    · exact ((getUser_writes _).run_queue (by simp) _).trans ((getUser_writes _).run_queue (by simp) s)
    · exact funext fun t => (getUser_table w _ _ t).trans (getUser_table w s _ t)

/-! ## The whole request -/

/-- The checks of the request, on the copies that the reads give. -/
theorem gmSendRoomCard_checks :
    ∃ sender receiver : Fields,
      (sender.get "roomCardNum").toNum = cards (s.record (userKey (msg.get "sender_unionid"))) ∧
      (receiver.get "roomCardNum").toNum = cards (s.record (userKey (receiverOf s msg))) ∧
      (gmSendRoomCard msg).run (exec w) s =
        if granted s msg then
          (transferRoomCard msg (receiverOf s msg) sender receiver).run (exec w) (afterReads w s msg)
        else (.send (if !(msg.get "sender_unionid").toBool || receiver.isEmpty then 1003 else 1004) ∅,
          afterReads w s msg) := by
  set s₁ := ((getUser (msg.get "sender_unionid")).run (exec w) s).2 with hs₁
  have hsender := getUser_found w s (msg.get "sender_unionid")
  have hreceiver := getUser_found w s₁ (receiverOf s msg)
  rw [hs₁, getUser_record, ← hs₁] at hreceiver
  set sender := ((getUser (msg.get "sender_unionid")).run (exec w) s).1
  set receiver := ((getUser (receiverOf s msg)).run (exec w) s₁).1
  have hcards : (sender.get "roomCardNum").toNum =
      cards (s.record (userKey (msg.get "sender_unionid"))) := by
    rw [hsender.get _ (by decide)]
    exact cards_fieldsAt s _
  refine ⟨sender, receiver, hcards, ?_, ?_⟩
  · rw [hreceiver.get _ (by decide)]
    exact cards_fieldsAt s _
  · show Prog.run (exec w) (getUser (msg.get "sender_unionid") >>= fun sender =>
      getUser (receiverOf s msg) >>= fun receiver => _) s = _
    rw [Prog.run_bind, Prog.run_bind]
    show Prog.run (exec w) (if !(msg.get "sender_unionid").toBool || receiver.isEmpty then _ else
      if (sender.get "roomCardNum").toNum - (msg.get "room_card_num").toNum < 0 then _ else _)
      (afterReads w s msg) = _
    have hgranted : granted s msg = ((msg.get "sender_unionid").toBool && !receiver.isEmpty &&
        decide (0 ≤ (sender.get "roomCardNum").toNum - (msg.get "room_card_num").toNum)) := by
      rw [granted, hcards, hreceiver.isEmpty, Option.not_isNone]
    rw [hgranted]
    cases (msg.get "sender_unionid").toBool with
    | false => rfl
    | true =>
        cases receiver.isEmpty with
        | true => rfl
        | false =>
            by_cases hnum : (sender.get "roomCardNum").toNum - (msg.get "room_card_num").toNum < 0
            · rw [if_neg (by simp), if_pos hnum, if_neg (by simpa using hnum)]
              rfl
            · rw [if_neg (by simp), if_neg hnum, if_pos (by simpa using hnum)]
              rfl

/-- A request that is not granted is answered with 1003 or 1004 after the two reads. -/
theorem gmSendRoomCard_refused (h : granted s msg = false) :
    ((gmSendRoomCard msg).run (exec w) s).1.errno? ≠ some 1000 ∧
      ((gmSendRoomCard msg).run (exec w) s).2 = afterReads w s msg := by
  obtain ⟨sender, receiver, -, -, hrun⟩ := gmSendRoomCard_checks w s msg
  rw [hrun, h, if_neg Bool.false_ne_true]
  refine ⟨?_, rfl⟩
  rw [Reply.errno?_send]
  split
  · decide
  · decide

/-- The stores after the two writes of a granted request. -/
def afterWrites (w : World) (s : Store) (msg : JsonObject) : Store :=
  let num := (msg.get "room_card_num").toNum
  let sent := ((updateUser (roomCardData (msg.get "sender_unionid")
    (cards (s.record (userKey (msg.get "sender_unionid"))) - num))).run (exec w) (afterReads w s msg)).2
  ((updateUser (roomCardData (receiverOf s msg)
    (cards (s.record (userKey (receiverOf s msg))) + num))).run (exec w) sent).2

theorem gmSendRoomCard_granted (h : granted s msg = true) :
    ((gmSendRoomCard msg).run (exec w) s).1.errno? = some 1000 ∧
      ((gmSendRoomCard msg).run (exec w) s).2 = afterWrites w s msg := by
  obtain ⟨sender, receiver, hsender, hreceiver, hrun⟩ := gmSendRoomCard_checks w s msg
  rw [hrun, h, if_pos rfl, transferRoomCard, hsender, hreceiver]
  simp only [Prog.run_bind]
  exact ⟨rfl, rfl⟩

theorem transfers_iff (h : granted s msg = true) :
    Transfers (userKey (msg.get "sender_unionid")) (userKey (receiverOf s msg)) s (afterWrites w s msg) ↔
      Proper s msg := by
  rw [granted, Bool.and_eq_true, Bool.and_eq_true, decide_eq_true_eq] at h
  obtain ⟨⟨htrue, hreceived⟩, henough⟩ := h
  obtain ⟨o, ho⟩ := Option.isSome_iff_exists.mp hreceived
  have hreads : Kept s (afterReads w s msg) := Kept.of_hash (afterReads_hash w s msg (by decide))
  unfold Proper afterWrites
  dsimp only
  have hv : Fields.encodable (receiverOf s msg) = true := by
    rw [receiverOf]
    cases (s.hash .userno2unionid).lookup (msg.get "receiver_userno").text <;> rfl
  generalize receiverOf s msg = v at *
  have hu : Fields.encodable (msg.get "sender_unionid") = true := msg.encodable_get _
  have hset : msg.get "sender_unionid" ≠ .null := by
    intro hnull
    rw [hnull] at htrue
    cases htrue
  generalize msg.get "sender_unionid" = u at *
  generalize (msg.get "room_card_num").toNum = num at *
  set sent := ((updateUser (roomCardData u (cards (s.record (userKey u)) - num))).run (exec w)
    (afterReads w s msg)).2 with hsent
  by_cases hks : storableKey (userKey u)
  · have h₁ : Written (userKey u) (cards (s.record (userKey u)) - num) s sent :=
      hreads.written (updateUser_written w _ _ hu hset hks)
    by_cases hnull : v = .null
    · -- the receiver is not written
      rw [if_pos hnull]
      have h₂ : Kept sent _ :=
        updateUser_kept w sent (cards (s.record (userKey v)) + num) (Or.inl hnull)
      rw [sub_eq_add_neg] at h₁
      have h₂' : Written (userKey u) (cards (s.record (userKey u)) + -num) s _ :=
        ⟨fun k hk => (h₂.record k).trans (h₁.others k hk), by rw [h₂.record]; exact h₁.isSome,
          by rw [h₂.record]; exact h₁.cards, by rw [h₂.total]; exact h₁.total⟩
      rw [transfers_of_written (Or.inl rfl) h₂', neg_eq_zero]
      by_cases hsome : (s.record (userKey u)).isSome = true
      · rw [if_pos hsome, and_iff_right hsome]
      · rw [if_neg hsome]
        exact iff_of_false (fun h => hsome h.1) (fun h => h hks)
    · rw [if_neg hnull]
      have h₂ := updateUser_written w sent (cards (s.record (userKey v)) + num) hv hnull
        (Store.storable_of_record ho)
      by_cases hne : userKey u = userKey v
      · rw [if_pos hne]
        rw [hne] at h₁
        rw [transfers_of_written (Or.inr rfl) (h₁.twice h₂), and_iff_right hreceived]
      · rw [if_neg hne, transfers_of_ne hne hreceived henough h₁ h₂]
        by_cases hsome : (s.record (userKey u)).isSome = true
        · rw [if_pos hsome, and_iff_right hsome]
        · rw [if_neg hsome]
          exact iff_of_false (fun h => hsome h.1) (fun h => h.1 hks)
  · -- the sender cannot have a record
    have hnone : s.record (userKey u) = none := Store.record_of_not_storable hks
    have h₁ : Kept s sent := by
      have hkept := updateUser_kept w (afterReads w s msg) (cards (s.record (userKey u)) - num)
        (Or.inr hks)
      exact ⟨fun k => (hkept.record k).trans (hreads.record k), hkept.total.trans hreads.total⟩
    have hsome : ¬ (s.record (userKey u)).isSome = true := by rw [hnone]; simp
    by_cases hnull : v = .null
    · have h₂ := updateUser_kept w sent (cards (s.record (userKey v)) + num) (Or.inl hnull)
      rw [if_pos hnull, if_neg hsome]
      refine iff_of_true (transfers_of_kept ⟨fun k => ?_, h₂.total.trans h₁.total⟩) hks
      exact (h₂.record k).trans (h₁.record k)
    · have h₂ := h₁.written (updateUser_written w sent (cards (s.record (userKey v)) + num) hv hnull
        (Store.storable_of_record ho))
      have hne : userKey u ≠ userKey v := fun h => hks (h ▸ Store.storable_of_record ho)
      rw [if_neg hnull, if_neg hne, if_neg hsome, transfers_of_written (Or.inr rfl) h₂,
        and_iff_right hreceived, and_iff_right hks]

/-- **Sending room cards**, in plain numbers.  A request to `gm_sendRoomCard.php` that is answered with 1000 moves cards
from the sender to the receiver, and every other one changes nothing, if and only if a granted
request is a proper one, and the numbers that a request which is not granted draws are entered
already. -/
theorem transfer_conserves_iff (w : World) (s : Store) (msg : JsonObject) (_ : PlainCards s msg) :
    let r := (gmSendRoomCard msg).run (exec w) s
    ((r.1.errno? = some 1000 →
        Transfers (userKey (msg.get "sender_unionid")) (userKey (receiverOf s msg)) s r.2) ∧
      (r.1.errno? ≠ some 1000 → SameStore s r.2)) ↔
    if granted s msg then Proper s msg else DrawsEntered w s msg := by
  intro r
  cases h : granted s msg with
  | true =>
      obtain ⟨herrno, hr⟩ := gmSendRoomCard_granted w s msg h
      rw [if_pos rfl, ← transfers_iff w s msg h, ← hr]
      constructor
      · exact fun hboth => hboth.1 herrno
      · exact fun ht => ⟨fun _ => ht, fun hne => absurd herrno hne⟩
  | false =>
      obtain ⟨herrno, hr⟩ := gmSendRoomCard_refused w s msg h
      rw [if_neg Bool.false_ne_true, ← sameStore_afterReads, ← hr]
      constructor
      · exact fun hboth => hboth.2 herrno
      · exact fun hsame => ⟨fun heq => absurd heq herrno, fun _ => hsame⟩

/-- Two users with 30 and 5 room cards. -/
def sampleStore : Store :=
  (((Store.empty.hset .user "u_a" (Fields.ofList [("unionid", .str "a"), ("userno", .num 100001),
    ("roomCardNum", .num 30)]).jsonEncode).hset .userno2unionid "100001" "a").hset .user "u_b"
      (Fields.ofList [("unionid", .str "b"), ("userno", .num 100002),
        ("roomCardNum", .num 5)]).jsonEncode).hset .userno2unionid "100002" "b"

/-- The first sends 10 of them to a number. -/
def sampleTransfer (receiver : ℚ) : JsonObject :=
  ⟨Fields.ofList [("sender_unionid", .str "a"), ("receiver_userno", .num receiver),
      ("room_card_num", .num 10)],
    Fields.encodable_ofList (by simp [Fields.encodable])⟩

/-- To the second user this is a transfer. -/
theorem transfer_conserves_iff_sample :
    let r := (gmSendRoomCard (sampleTransfer 100002)).run (exec World.plain) sampleStore
    r.1.errno? = some 1000 ∧ cards (r.2.record "u_b") = 15 ∧
      ((r.1.errno? = some 1000 → Transfers (userKey ((sampleTransfer 100002).get "sender_unionid"))
          (userKey (receiverOf sampleStore (sampleTransfer 100002))) sampleStore r.2) ∧
        (r.1.errno? ≠ some 1000 → SameStore sampleStore r.2)) :=
  ⟨by decide +kernel, by decide +kernel,
    (transfer_conserves_iff World.plain sampleStore (sampleTransfer 100002) (by decide +kernel)).mpr
      (by
        rw [if_pos (by decide +kernel), Proper, if_neg (by decide +kernel), if_neg (by decide +kernel),
          if_pos (by decide +kernel)]
        decide +kernel)⟩

/-- **A transfer to oneself makes room cards.**  The request is answered with 1000, and the users have 10
more cards than before. -/
theorem self_transfer_makes_cards :
    let r := (gmSendRoomCard (sampleTransfer 100001)).run (exec World.plain) sampleStore
    r.1.errno? = some 1000 ∧ totalCards sampleStore = 35 ∧ totalCards r.2 = 45 := by
  decide +kernel

end RoomCards
