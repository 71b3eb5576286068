/-
# The copy and the connection

A turn of `copy` goes on with an iterator, which returns the records of some moment; what has changed
since is still in the binlog behind `last_seq` (`Client.Iterates`).  With the next record the cursor
moves to its key (`Client.moves_copyTurn`).  A slave that connects is served from its own number and key
(`Client.reads_init`).
-/
import DoudizhuBackend.Ssdb.ReplicaClient

namespace Ssdb

/-! ## A turn of `copy` -/

/-- The keys of records lie behind the first byte that `copy` starts from. -/
theorem IsNamed.min_prefix_lt {k : Bytes} (h : IsNamed k) : [DataType.MIN_PREFIX] < k := by
  cases h with
  | kv key => exact List.cons_lt_cons_iff.mpr (Or.inl (by decide))
  | hash h => exact List.cons_lt_cons_iff.mpr (Or.inr ⟨rfl, List.nil_lt_cons _ _⟩)
  | zset h => exact List.cons_lt_cons_iff.mpr (Or.inl (by decide))

/-- The bytes of the records that `copy` meets. -/
theorem isReplicated_or_queue {db : Db} (hdb : db.Stored) {t : Byte} {rest : Bytes} {v : Value}
    (hget : db.get (t :: rest) = some v) (hgt : [DataType.MIN_PREFIX] < t :: rest)
    (hle : ¬ signedChar DataType.MAX_PREFIX < signedChar t) :
    IsReplicated (t :: rest) ∨ t = DataType.QUEUE := by
  have hmin : DataType.MIN_PREFIX ≤ t := by
    rcases List.cons_lt_cons_iff.mp hgt with hlt | heq
    · exact hlt.le
    · exact heq.1.le
  have hhead : (t :: rest).head? ≠ some DataType.SYNCLOG := by
    intro heq
    rw [Option.some.inj heq] at hmin
    exact absurd hmin (by decide)
  obtain ⟨⟨f, hf⟩, -⟩ := hdb.keys _ v hget hhead
  cases f with
  | kv => exact Or.inl (Or.inl hf)
  | hash =>
      rcases hf with hf | hf
      · exact Or.inl (Or.inr (Or.inl hf))
      · rw [Option.some.inj hf] at hmin
        exact absurd hmin (by decide)
  | zset =>
      rcases hf with hf | hf | hf
      · exact Or.inl (Or.inr (Or.inr hf))
      · rw [Option.some.inj hf] at hle
        exact absurd (by decide) hle
      · rw [Option.some.inj hf] at hmin
        exact absurd hmin (by decide)
  | queue =>
      rcases hf with hf | hf
      · exact Or.inr (Option.some.inj hf)
      · rw [Option.some.inj hf] at hmin
        exact absurd hmin (by decide)

namespace Client.Iterates

variable {o : Origin} {seq : ℕ} {key k l : Bytes} {cursor : WithBot (WithTop Bytes)} {db : Db} {v : Value}
  {es : List (Bytes × Value)}

/-- What the iterator has not passed is before it. -/
theorem mem_after (h : Iterates o seq key cursor db) (hk : cursor < cursorAt k) (hne : db.content k ≠ none) :
    IsReplicated k ∧ ∃ v, (k, v) ∈ db.after key := by
  have hrep : IsReplicated k := by
    by_contra hnot
    exact hne (Db.content_of_not hnot db)
  refine ⟨hrep, ?_⟩
  have hkey := h.ahead k hk hne
  rw [Db.content_of_isReplicated hrep] at hne
  have hsome : db.get k ≠ none := fun hnone => hne (by rw [hnone]; rfl)
  obtain ⟨v, hv⟩ := Option.ne_none_iff_exists'.mp hsome
  exact ⟨v, OrderedMap.mem_after.mpr ⟨hkey, hv⟩⟩

/-- There is no record between the cursor and the next key of the iterator. -/
theorem between (h : Iterates o seq key cursor db) (hes : db.after key = (l, v) :: es)
    (hk : cursor < cursorAt k) (hlt : k < l) : db.content k = none := by
  by_contra hne
  obtain ⟨-, w, hmem⟩ := h.mem_after hk hne
  have hsorted := db.after_sorted key
  rw [hes] at hmem hsorted
  rcases List.mem_cons.mp hmem with heq | hrest
  · rw [(Prod.mk.inj heq).1] at hlt
    exact lt_irrefl _ hlt
  · exact lt_asymm hlt ((List.pairwise_cons.mp hsorted).1 _ hrest)

/-- Behind the last record type there is no record. -/
theorem done (h : Iterates o seq key cursor db)
    (hend : ∀ l v es, db.after key = (l, v) :: es →
      ∃ t rest, l = t :: rest ∧ signedChar DataType.MAX_PREFIX < signedChar t)
    (hk : cursor < cursorAt k) : db.content k = none := by
  by_contra hne
  obtain ⟨hrep, w, hmem⟩ := h.mem_after hk hne
  obtain ⟨p, es, hes⟩ := List.exists_cons_of_ne_nil (List.ne_nil_of_mem hmem)
  obtain ⟨t, rest, hl, hlt⟩ := hend p.1 p.2 es hes
  have hle : p.1 ≤ k := by
    have hsorted := db.after_sorted key
    rw [hes] at hmem hsorted
    rcases List.mem_cons.mp hmem with heq | hrest
    · rw [← heq]
    · exact ((List.pairwise_cons.mp hsorted).1 _ hrest).le
  -- the key starts with one of the three bytes, which are smaller
  have hsmall : ∀ b, k.head? = some b → b ≤ DataType.MAX_PREFIX → False := by
    intro b hb hbmax
    obtain ⟨k', rfl⟩ : ∃ k', k = b :: k' := ⟨k.tail, List.eq_cons_of_mem_head? hb⟩
    have hbt : b < t := by
      rw [Fin.lt_def]
      rw [Fin.le_def] at hbmax
      have hmax : DataType.MAX_PREFIX.val = 115 := rfl
      unfold signedChar at hlt
      rw [hmax] at hlt hbmax
      split at hlt <;> split at hlt <;> omega
    rw [hl] at hle
    exact absurd (List.cons_lt_cons_iff.mpr (Or.inl hbt)) hle.not_gt
  rcases hrep with hb | hb | hb
  · exact hsmall _ hb (by decide)
  · exact hsmall _ hb (by decide)
  · exact hsmall _ hb (by decide)

end Client.Iterates

/-- **A record that is copied is set by the slave**, and an item of a queue leaves the records alone. -/
theorem Slave.replay_copy {s : Slave} (hs : s.db.IsStore) {db : Db} (hdb : db.Stored)
    (hnil : db.Keys (· ≠ encodeKvKey [])) {t : Byte} {rest : Bytes} {v : Value}
    (hget : db.get (t :: rest) = some v) (hgt : [DataType.MIN_PREFIX] < t :: rest)
    (hle : ¬ signedChar DataType.MAX_PREFIX < signedChar t) (seq : ℕ) :
    ∃ cmd, Client.copyCommand t = some cmd ∧ cmd ≠ .beginCopy ∧ cmd ≠ .endCopy ∧
      (s.Fits ⟨⟨seq, .copy, cmd, t :: rest⟩, some v.image⟩ →
        ∃ ws, s.replay ⟨⟨seq, .copy, cmd, t :: rest⟩, some v.image⟩ = some ws ∧
          Db.IsStore (s.db.apply ws) ∧ ∀ k, Db.content (s.db.apply ws) k =
            if k = t :: rest then db.content k else s.db.content k) := by
  rcases isReplicated_or_queue hdb hget hgt hle with hrep | rfl
  · obtain ⟨cmd, hcopy, hcmd, hbegin, hend⟩ : ∃ cmd, Client.copyCommand t = some cmd ∧
        entryCommand true (t :: rest) = some cmd ∧ cmd ≠ .beginCopy ∧ cmd ≠ .endCopy := by
      rcases hrep with h | h | h
      all_goals
        obtain rfl := Option.some.inj h
        exact ⟨_, rfl, rfl, by decide, by decide⟩
    refine ⟨cmd, hcopy, hbegin, hend, fun _ => ?_⟩
    have hvalue : db.content (t :: rest) = some v.image := by
      rw [Db.content_of_isReplicated hrep, hget]
      rfl
    obtain ⟨ws, hws, hstore, hcontent⟩ :=
      replay_set (m := ⟨⟨seq, .copy, cmd, t :: rest⟩, some v.image⟩) hs hcmd rfl
        (hdb.record hvalue (hnil _ _ hget))
    refine ⟨ws, hws, hstore, fun k => ?_⟩
    rw [hcontent, Function.update_apply]
    split
    · rename_i hk
      rw [hk, hvalue]
    · rfl
  · refine ⟨.qpushBack, rfl, by decide, by decide, fun hfits => ?_⟩
    obtain ⟨ws, hws, hstore, hcontent⟩ := replay_push hs rfl hfits
    refine ⟨ws, hws, hstore, fun k => ?_⟩
    rw [hcontent]
    split
    · rename_i hk
      have hnot : ¬ IsReplicated k := by
        rw [hk]
        exact not_isReplicated_cons (by decide) rest
      rw [Db.content_of_not hnot, Db.content_of_not hnot]
    · rfl

/-- When a copy begins, `last_seq` 0 stands for the last number that was given. -/
def Origin.begin (o : Origin) (c : Client) : Origin :=
  { o with mark := if c.AtStart then o.master.lastSeq else o.mark }

theorem Origin.Valid.begin {o : Origin} (ho : o.Valid) (c : Client) : (o.begin c).Valid where
  ships := ho.ships
  mark_le := by
    show (if c.AtStart then o.master.lastSeq else o.mark) ≤ o.master.lastSeq
    split
    · exact le_rfl
    · exact ho.mark_le

namespace Client

variable {o : Origin} {c : Client} {s : Slave}

theorem begin_of_not_atStart (h : ¬ c.AtStart) : o.begin c = o := by
  rw [Origin.begin, if_neg h]

/-- A turn of `copy`: what is before the cursor is the rest of an iterator. -/
structure Copies (o : Origin) (c : Client) (s : Slave) (key : Bytes) (cursor : WithBot (WithTop Bytes))
    (db : Db) : Prop where
  entries : c.entries o.master.db = db.after key
  iterates : Iterates o c.lastSeq key cursor db
  follows : Replica.Follows ⟨s.db.content, o.number c.lastSeq, cursor⟩ o.source none
  past : o.master.Past o.base c.lastSeq
  seq_le : c.lastSeq ≤ o.master.lastSeq
  slave_le : s.lastSeq ≤ c.lastSeq

theorem Awaits.begin (hs : c.Awaits o s) : s.Resumes (o.begin c) := by
  by_cases hstart : c.AtStart
  · obtain ⟨hseq, hkey, -⟩ := hs.isNew hstart
    have hno : ¬ (s.lastSeq ≠ 0 ∨ s.lastKey ≠ []) := by simp [hseq, hkey]
    exact ⟨hs.resumes.store, hs.resumes.seq_le, hs.resumes.key_gt, fun h => absurd h hno,
      fun h => absurd h hno⟩
  · rw [begin_of_not_atStart hstart]
    exact hs.resumes

/-- Every turn of `copy` goes on with an iterator, an old one or one that is made now. -/
theorem Serves.copies (hc : c.Serves o s) (ho : o.Valid) (hs : c.Awaits o s) (hpoint : c.point = .copy)
    (hlen : o.master.db.entries.length < 2 ^ 64) :
    c.status = .copy ∧ ∃ key cursor db, Copies (o.begin c) c s key cursor db := by
  have hstored := ho.ships.stored
  have hnil := ho.ships.ne_nil
  rcases hc with hc | hc
  · -- a new copy begins with the whole store of the master
    have hnew := hs.isNew hc.atStart
    refine ⟨hc.atStart.1, [DataType.MIN_PREFIX], ⊥, o.master.db, ?_⟩
    constructor
    case entries =>
      rw [entries, hc.iter, Option.getD_none, if_pos hc.atStart.2]
      exact iterator_all hlen _
    case iterates =>
      refine ⟨hstored, hnil, .start _ _ _, le_rfl, bot_le, fun k _ hne => ?_⟩
      obtain ⟨v, hv⟩ := Option.ne_none_iff_exists'.mp hne
      have hkey : k ≠ encodeKvKey [] := by
        rintro rfl
        obtain ⟨w, hw, -⟩ := Option.map_eq_some_iff.mp hv
        exact hnil _ w hw rfl
      exact (hstored.record hv hkey).named.min_prefix_lt
    case follows => exact .start _ _ hnew.content
    case past => exact hc.past hpoint
    case seq_le => exact hc.seq_le
    case slave_le =>
      rw [hnew.seq]
      exact Nat.zero_le _
  · -- a copy under way goes on where its iterator stands
    rw [begin_of_not_atStart hc.not_atStart]
    obtain ⟨hcopy, -, hgt⟩ := hc.status.resolve_right fun h => h.2.2 hpoint
    have hhand : c.hand = none := hand_eq_none (by simp [hpoint])
    have hfollows := hc.follows
    rw [hhand] at hfollows
    refine ⟨hcopy, c.lastKey, c.cursor, ?_⟩
    cases hiter : c.iter with
    | none =>
        have hne : c.lastKey ≠ [] := fun hkey => hc.not_atStart ⟨hcopy, hkey⟩
        have hcursor := cursor_of_copy hcopy
        refine ⟨o.master.db, ?_, ⟨hstored, hnil, .start _ _ _, hgt.le, hcursor.le, fun k hk _ => ?_⟩,
          hfollows, hc.past, hc.seq_le, hc.slave_le⟩
        · rw [entries, hiter, Option.getD_none, if_neg hne, iterator_all hlen]
        · rw [hcursor] at hk
          exact cursorAt_lt.mp hk
    | some es =>
        obtain ⟨db, hdb, heq⟩ := hc.iter es hiter hcopy
        refine ⟨db, ?_, hdb, hfollows, hc.past, hc.seq_le, hc.slave_le⟩
        rw [entries, hiter]
        exact heq

section Copies

variable {key : Bytes} {cursor : WithBot (WithTop Bytes)} {db : Db}

/-- **The end of a copy.** -/
theorem Copies.reads_end (h : Copies o c s key cursor db) (hs : s.Resumes o)
    (hend : ∀ k, cursor < cursorAt k → db.content k = none) :
    s.Reads Slave.Fits (Awaits o c.copyEnd.1) (Serves o c.copyEnd.1) c.copyEnd.2 := by
  have hdone : ¬ c.copyEnd.1.AtStart := by rintro ⟨hcopy, -⟩; cases hcopy
  -- nothing is left to be copied
  have htop : Replica.Follows ⟨s.db.content, o.number c.lastSeq, ⊤⟩ o.source none := by
    apply h.follows.copy h.iterates.fresh
    · intro k hk _
      have hahead : s.db.content k = none := h.follows.ahead k hk
      rw [hahead, hend k hk]
    · exact fun k _ => rfl
    · exact le_top
  refine .one ⟨hs, fun hstart => absurd hstart hdone⟩ fun _ => ?_
  show Awaits o c.copyEnd.1 { s with lastKey := [] } ∧ Serves o c.copyEnd.1 { s with lastKey := [] }
  have hcursor : Slave.cursor { s with lastKey := [] } = ⊤ := if_pos rfl
  refine ⟨⟨⟨hs.store, hs.seq_le, fun hne => absurd rfl hne, ?_, ?_⟩, fun hstart => absurd hstart hdone⟩,
    Or.inr ⟨htop, h.past, h.seq_le, h.slave_le, Or.inr ⟨rfl, rfl, fun hpoint => by cases hpoint⟩, ?_, ?_⟩⟩
  · intro hne
    have hseq : s.lastSeq ≠ 0 := hne.resolve_right fun hkey => hkey rfl
    rw [hcursor]
    exact htop.rewind (Origin.number_mono hseq h.slave_le)
  · intro hne
    exact hs.past (Or.inl (hne.resolve_right fun hkey => hkey rfl))
  · exact fun log hpoint => by cases hpoint
  · exact fun es hes => by cases hes

/-- **A record is copied.** -/
theorem Copies.reads_record (h : Copies o c s key cursor db) (hs : s.Resumes o) (hcopy : c.status = .copy)
    (hpoint : c.point = .copy) {t : Byte} {rest : Bytes} {v : Value} {es : List (Bytes × Value)}
    (hes : db.after key = (t :: rest, v) :: es)
    (hle : ¬ signedChar DataType.MAX_PREFIX < signedChar t) :
    ∃ cmd, copyCommand t = some cmd ∧
      s.Reads Slave.Fits (Awaits o { c with iter := some es, lastKey := t :: rest })
        (Serves o { c with iter := some es, lastKey := t :: rest })
        [⟨⟨c.lastSeq, .copy, cmd, t :: rest⟩, some v.image⟩] := by
  have hmem : (t :: rest, v) ∈ db.after key := by
    rw [hes]
    exact List.mem_cons_self
  obtain ⟨hlt, hget⟩ := OrderedMap.mem_after.mp hmem
  have hgt : [DataType.MIN_PREFIX] < t :: rest := h.iterates.key_ge.trans_lt hlt
  have hbefore : cursor < cursorAt (t :: rest) := h.iterates.cursor_le.trans_lt (cursorAt_lt.mpr hlt)
  obtain ⟨cmd, hcmd, hbegin, hend, hreplay⟩ :=
    Slave.replay_copy hs.store h.iterates.stored h.iterates.ne_nil hget hgt hle c.lastSeq
  -- a copy that has sent a record is not at its start
  have hnot : ¬ AtStart { c with iter := some es, lastKey := t :: rest } := fun hstart => by
    cases hstart.2
  refine ⟨cmd, hcmd, .one ⟨hs, fun hstart => absurd hstart hnot⟩ fun hfits => ?_⟩
  obtain ⟨ws, hws, hstore, hcontent⟩ := hreplay hfits
  -- the record is replayed like an entry of the log
  have hproc : s.proc ⟨⟨c.lastSeq, .copy, cmd, t :: rest⟩, some v.image⟩ =
      { s with db := s.db.apply ws, lastSeq := c.lastSeq, lastKey := t :: rest } := by
    have hsync : s.proc ⟨⟨c.lastSeq, .copy, cmd, t :: rest⟩, some v.image⟩ =
        s.procSync ⟨⟨c.lastSeq, .copy, cmd, t :: rest⟩, some v.image⟩ := by
      show s.procCopy _ = _
      unfold Slave.procCopy
      split
      · exact absurd ‹_› hbegin
      · exact absurd ‹_› hend
      · rfl
    rw [hsync, Slave.procSync, hws]
    rfl
  rw [hproc]
  have hlead : Leads o { c with iter := some es, lastKey := t :: rest }
      { s with db := s.db.apply ws, lastSeq := c.lastSeq, lastKey := t :: rest } := by
    have hcursor : Client.cursor { c with iter := some es, lastKey := t :: rest } = cursorAt (t :: rest) :=
      cursor_of_copy hcopy
    constructor
    case follows =>
      rw [hand_eq_none (by simp [hpoint]), hcursor]
      apply h.follows.copy h.iterates.fresh
      · -- between the old place and the record the store has nothing
        intro k hk hle
        rw [hcontent]
        split
        · rfl
        · rename_i hne
          have hahead : s.db.content k = none := h.follows.ahead k hk
          rw [hahead, h.iterates.between hes hk (lt_of_le_of_ne (cursorAt_le.mp hle) hne)]
      · intro k hk
        rw [hcontent, if_neg]
        rintro rfl
        exact hk ⟨hbefore, le_rfl⟩
      · exact hbefore.le
    case past => exact h.past
    case seq_le => exact h.seq_le
    case slave_le => exact le_rfl
    case status => exact Or.inl ⟨hcopy, rfl, hgt⟩
    case sends =>
      intro log hsend
      rw [show c.point = .send log from hsend] at hpoint
      cases hpoint
    case iter =>
      rintro es' hes' -
      obtain rfl : es = es' := Option.some.inj hes'
      refine ⟨db, ⟨h.iterates.stored, h.iterates.ne_nil, ?_, hgt.le, hcursor.le, fun k hk _ => ?_⟩, ?_⟩
      · rw [hcursor]
        exact h.iterates.fresh.advance hbefore.le
      · rw [hcursor] at hk
        exact cursorAt_lt.mp hk
      · exact (OrderedMap.after_of_cons hes).symm
  refine ⟨hlead.awaits ?_ hstore rfl, Or.inr hlead⟩
  exact hand_eq_none (by simp [hpoint])

end Copies

/-- **A turn of `copy`.** -/
theorem moves_copyTurn (ho : o.Valid) (hpoint : c.point = .copy)
    (hlen : o.master.db.entries.length < 2 ^ 64) :
    c.Moves o (o.begin c) (c.copyTurn o.master.db) := by
  refine ⟨fun s hs => ⟨hs.begin, fun h => hs.isNew (atStart_of_copyTurn h)⟩, fun s hs hc => ?_⟩
  obtain ⟨hcopy, key, cursor, db, hcopies⟩ := hc.copies ho hs hpoint hlen
  have hentries : c.entries o.master.db = db.after key := hcopies.entries
  unfold copyTurn
  rw [hentries]
  cases hes : db.after key with
  | nil =>
      refine hcopies.reads_end hs.begin fun k hk => hcopies.iterates.done (fun l v es h => ?_) hk
      rw [hes] at h
      cases h
  | cons p es =>
      obtain ⟨k, v⟩ := p
      cases k with
      | nil =>
          -- the iterator starts behind the first byte of a type
          have hlt : key < [] := (OrderedMap.mem_after.mp (hes ▸ List.mem_cons_self)).1
          exact absurd hlt (List.not_lt_nil key)
      | cons t rest =>
          dsimp only
          split
          · rename_i hlast
            refine hcopies.reads_end hs.begin fun k hk => hcopies.iterates.done (fun l w es' h => ?_) hk
            rw [hes] at h
            obtain ⟨hp, -⟩ := List.cons.inj h
            exact ⟨t, rest, (Prod.mk.inj hp).1.symm, hlast⟩
          · rename_i hle
            obtain ⟨cmd, hcmd, hreads⟩ := hcopies.reads_record hs.begin hcopy hpoint hes hle
            rw [hcmd]
            exact hreads

/-- `copy` returns to its caller. -/
theorem moves_copyBreak (hpoint : c.point = .copy) : c.Moves o o ({ c with point := .idle }, []) := by
  refine .silent id fun s _ hc => ?_
  rcases hc with hc | hc
  · exact Or.inl (hc.goOn (by simp) fun h => by cases h)
  · exact Or.inr (hc.goOn (hand_eq_none (by simp [hpoint])) (by simp) fun _ h => by cases h)

/-- The slave takes over the number of a `noop`. -/
theorem Leads.reads_noop (hc : c.Leads o s) (hs : s.Resumes o) (hpoint : ∀ log, c.point ≠ .send log)
    {m : Message} (hm : s.proc m = { s with lastSeq := c.lastSeq }) :
    s.Reads Slave.Fits (Awaits o c) (Serves o c) [m] := by
  refine .one ⟨hs, fun hstart => absurd hstart hc.not_atStart⟩ fun _ => ?_
  rw [hm]
  have hlead : c.Leads o { s with lastSeq := c.lastSeq } :=
    ⟨hc.follows, hc.past, hc.seq_le, le_rfl, hc.status, hc.sends, hc.iter⟩
  exact ⟨hlead.awaits (hand_eq_none hpoint) hs.store rfl, Or.inr hlead⟩

/-- **The next turn of the thread.** -/
theorem moves_idleTurn (hpoint : c.point = .idle) (silent : Bool) : c.Moves o o (c.idleTurn silent) := by
  refine ⟨fun s hs => hs.of_atStart atStart_of_idleTurn, fun s hs hc => ?_⟩
  have hin : c.status ≠ .outOfSync := by
    rcases hc with hc | hc
    · rw [hc.atStart.1]
      decide
    · rcases hc.status with ⟨h, -⟩ | ⟨h, -⟩ <;> rw [h] <;> decide
  have hgo : Serves o { c with point := .sync } s := by
    rcases hc with hc | hc
    · exact Or.inl (hc.goOn (by simp) fun h => by cases h)
    · exact Or.inr (hc.goOn (hand_eq_none (by simp [hpoint])) (by simp) fun _ h => by cases h)
  unfold idleTurn
  cases silent with
  | true =>
      rw [if_pos rfl]
      dsimp only
      rw [if_neg hin]
      exact ⟨hs.of_atStart id, hgo⟩
  | false =>
      rw [if_neg (by decide)]
      by_cases hstart : c.AtStart
      · -- nothing has been copied: the number stays 0
        rw [noop_of_atStart hstart]
        dsimp only
        rw [if_neg hin]
        refine .one (hs.of_atStart id) fun _ => ?_
        have hproc : s.proc ⟨⟨0, .noop, .none, []⟩, some (ascii "noop")⟩ = s := by
          show { s with lastSeq := 0 } = s
          rw [← (hs.isNew hstart).seq]
        rw [hproc]
        exact ⟨hs.of_atStart id, hgo⟩
      · rw [noop_of_not_atStart hstart]
        dsimp only
        rw [if_neg hin]
        have hlead := hgo.resolve_left fun hwaits => hstart hwaits.atStart
        have hlead' : Leads o { c with lastNoopSeq := c.lastSeq, point := .sync } s :=
          ⟨hlead.follows, hlead.past, hlead.seq_le, hlead.slave_le, hlead.status,
            (fun _ hpoint => by cases hpoint), hlead.iter⟩
        exact hlead'.reads_noop hs.resumes (by simp) rfl

/-! ## A connection -/

/-- **A slave connects.** -/
theorem reads_init (hs : s.Resumes o)
    (hnew : s.lastSeq = 0 → s.lastKey = [] → ∀ k, s.db.content k = none)
    (hin : (init o.master s.lastSeq s.lastKey s.isMirror).1.status ≠ .outOfSync) :
    s.Reads Slave.Fits (Awaits o (init o.master s.lastSeq s.lastKey s.isMirror).1)
      (Serves o (init o.master s.lastSeq s.lastKey s.isMirror).1)
      (init o.master s.lastSeq s.lastKey s.isMirror).2 := by
  unfold init at hin ⊢
  dsimp only at hin ⊢
  split
  · -- out of sync
    rename_i hout
    rw [if_pos hout] at hin
    exact absurd rfl hin
  · by_cases hkey : s.lastKey = []
    · have hcursor : s.cursor = ⊤ := if_pos hkey
      have hproc : { s with lastKey := [] } = s := by rw [← hkey]
      by_cases hseq : s.lastSeq = 0
      · -- a copy from the beginning
        rw [if_neg (fun h => h.2 hseq), if_pos ⟨hkey, hseq⟩]
        have hawaits : Awaits o (reset ⟨.init, s.lastSeq, 0, s.lastKey, s.isMirror, none, .sync⟩).1 s :=
          ⟨hs, fun _ => ⟨hseq, hkey, hnew hseq hkey⟩⟩
        refine .one hawaits fun _ => ⟨hawaits, Or.inl ⟨⟨rfl, rfl⟩, rfl, ?_, Nat.zero_le _, ?_⟩⟩
        · exact fun log hpoint => by cases hpoint
        · exact fun hpoint => by cases hpoint
      · -- only the entries behind the number
        rw [if_pos ⟨hkey, hseq⟩]
        have hfollows := hs.follows (Or.inl hseq)
        rw [hcursor] at hfollows
        have hlead : Leads o ⟨.sync, s.lastSeq, 0, s.lastKey, s.isMirror, none, .sync⟩ s :=
          ⟨hfollows, hs.past (Or.inl hseq), hs.seq_le, le_rfl, Or.inr ⟨rfl, hkey, fun h => by cases h⟩,
            (fun _ hpoint => by cases hpoint), (fun _ hes => by cases hes)⟩
        have hawaits := hlead.awaits rfl hs.store rfl
        refine .one hawaits fun _ => ?_
        show Awaits o _ { s with lastKey := [] } ∧ Serves o _ { s with lastKey := [] }
        rw [hproc]
        exact ⟨hawaits, Or.inr hlead⟩
    · -- the copy goes on behind the last key
      rw [if_neg (fun h => hkey h.1), if_neg (fun h => hkey h.1)]
      have hcursor : s.cursor = cursorAt s.lastKey := if_neg hkey
      have hfollows := hs.follows (Or.inr hkey)
      rw [hcursor] at hfollows
      have hlead : Leads o ⟨.copy, s.lastSeq, 0, s.lastKey, s.isMirror, none, .sync⟩ s :=
        ⟨hfollows, hs.past (Or.inr hkey), hs.seq_le, le_rfl, Or.inl ⟨rfl, rfl, hs.key_gt hkey⟩,
          (fun _ hpoint => by cases hpoint), (fun _ hes => by cases hes)⟩
      exact ⟨hlead.awaits rfl hs.store rfl, Or.inr hlead⟩

end Client

end Ssdb
