/-
# User numbers

A user gets the number `100001 + n` at registration, where `n` is the size of the hash `user`, and
`userno2unionid` leads from the number back to the user.  Other requests find a user by the number
(`targetUserno`, `receiver_userno`), so it should belong to one registered user.

This is so in every run whose requests write records of registered users only and leave the numbers
as they are (`users_numbered`), if the numbers in records and requests are plain.  The handlers do not all check this: a command of the game server
for an unknown `unionid` makes a record without a number (`unregistered_record`).
-/
import DoudizhuBackend.UserRequests

open Php GameData

namespace UserStores

/-- Numbers and users belong together.  `vs` are the `unionid`s that were registered. -/
structure Numbering (vs : List String) (s : Store) : Prop where
  registered : ∀ k ∈ s.hash .user, ∃ t ∈ vs, k = userKey (.str t)
  mapped : ∀ k ∈ s.hash .user, ∃ o, s.record k = some o ∧ userKey (o.get "unionid") = k ∧
    o.isset "userno" = true ∧ ownerOf s (o.get "userno") = some (o.get "unionid").text
  distinct : ∀ k k' o o', s.record k = some o → s.record k' = some o' → k ≠ k' →
    (o.get "userno").text ≠ (o'.get "userno").text

section Sound

variable {vs : List String} {s : Store} {k k' : String} {o o' : JsonObject}

theorem Sound.ownerOf_userno (hs : Sound .numbers vs s) (ho : s.record k = some o) :
    ownerOf s (o.get "userno") = some (o.get "unionid").text := by
  obtain ⟨n, hn, -, hlookup⟩ := hs.numbered rfl k o ho
  rw [ownerOf, hn, hlookup]

/-- Two records with one number have one `unionid`, so they are under one key. -/
theorem Sound.key_eq (hs : Sound .numbers vs s) (ho : s.record k = some o)
    (ho' : s.record k' = some o') (heq : (o.get "userno").text = (o'.get "userno").text) :
    k = k' := by
  have howner := hs.ownerOf_userno ho
  rw [ownerOf, heq, ← ownerOf, hs.ownerOf_userno ho'] at howner
  rw [← hs.keyed k o ho, ← hs.keyed k' o' ho', userKey, userKey, Option.some.inj howner]

theorem Sound.numbering (hs : Sound .numbers vs s) : Numbering vs s where
  registered := fun k hk => hs.known k (hs.stored k hk)
  mapped := by
    intro k hk
    obtain ⟨o, ho⟩ := Option.isSome_iff_exists.mp (hs.stored k hk)
    exact ⟨o, ho, hs.keyed k o ho, JsonObject.isset_eq_true.mpr (hs.userno k o ho),
      hs.ownerOf_userno ho⟩
  distinct := fun _ _ _ _ ho ho' hne heq => hne (hs.key_eq ho ho' heq)

end Sound

/-- **User numbers**, in every run of whole requests with plain numbers from the empty stores, if the
requests write records of registered users only, write no other number into them, and write nothing that
JSON cannot hold: records exist only for registered users, the number of every record leads back to its
`unionid`, and no two users have the same number. -/
theorem users_numbered (w : World) {ls : List Arrival}
    (hrun : Guarded (step w) (fun s l => Proper s l ∧ Numbered s l ∧ PlainStep s l) Store.empty ls) :
    Numbering (eventValues (step w) registers Store.empty ls)
      (ls.foldl (step w) Store.empty) := by
  have hsound : Sound .numbers ([] ++ eventValues (step w) registers Store.empty ls)
      (ls.foldl (step w) Store.empty) :=
    hrun.history (H := Sound .numbers)
      (fun vs s l hs h => sound_step .numbers nofun hs l h.1 (fun _ => h.2.1) nofun)
      sound_empty
  exact hsound.numbering

/-! ## A record without a number -/

/-- The day of the samples. -/
def sampleTime : ℕ := 1600000000

/-- The login of a user. -/
def sampleLogin (unionid : String) : Request :=
  .login (.str "10.0.0.7")
    ⟨Fields.ofList [("unionid", .str unionid), ("nickname", .str "a")],
      Fields.encodable_ofList (by simp [Fields.encodable])⟩

/-- The game server takes five room cards from a user. -/
def sampleCost (unionid : String) : Request :=
  .serviceGateWay
    ⟨⟨Fields.ofList [("unionid", .str unionid), ("cmd", .str "cmd_costRoomCard"),
        ("costRoomCard", .num (-5))],
      Fields.encodable_ofList (by simp [Fields.encodable])⟩, ⟨[], .null⟩⟩

/-- The cost of a room for an unknown user makes a record, which has no number. -/
theorem unregistered_record :
    ¬ ∀ (w : World) (ls : List Arrival),
      Numbering (eventValues (step w) registers Store.empty ls)
        (ls.foldl (step w) Store.empty) := by
  intro h
  obtain ⟨t, ht, -⟩ := (h World.plain [⟨sampleTime, sampleCost "b"⟩]).registered "u_b"
    (by decide +kernel)
  cases ht

/-- Two users register, and the cost of a room is for one of them. -/
def sampleRun : List Arrival :=
  [⟨sampleTime, sampleLogin "a"⟩, ⟨sampleTime + 5, sampleLogin "b"⟩,
    ⟨sampleTime + 10, sampleCost "b"⟩]

theorem two_users_numbered :
    eventValues (step World.plain) registers Store.empty sampleRun = ["a", "b"] ∧
      Numbering ["a", "b"] (sampleRun.foldl (step World.plain) Store.empty) := by
  have hvalues : eventValues (step World.plain) registers Store.empty sampleRun = ["a", "b"] := by
    decide +kernel
  refine ⟨hvalues, ?_⟩
  rw [← hvalues]
  exact users_numbered World.plain (by decide +kernel)

end UserStores
