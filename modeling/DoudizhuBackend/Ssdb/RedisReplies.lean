/-
# Replies in the Redis protocol

`RedisLink::send_resp` of `ssdb-master/src/net/link_redis.cpp`, and the two commands whose replies it
rebuilds, `proc_multi_get` and `proc_multi_hget`.

The server answers a request for several keys with the pairs that it has found.  A client of Redis wants one
element for each key, so that `send_resp` walks over the keys of the request and over the pairs: a key that
is not the next one of the pairs has no value.  That is right because a key that is not stored is not among
the pairs, and a key that is stored is the first of those that are left (`mergeReply_foundPairs`).
-/
import DoudizhuBackend.Ssdb.Hash
import DoudizhuBackend.Ssdb.Kv
import DoudizhuBackend.Ssdb.RedisLink

namespace Ssdb.RedisLink

/-! ## `send_resp` -/

/-- `REPLY_*`. -/
inductive Reply where
  | bulk | multiBulk | int | status
  deriving DecidableEq

/-- The column `reply_type` of `cmds_raw`; all other commands have `REPLY_INT`. -/
def replyType (cmd : Bytes) : Reply :=
  if cmd ∈ ["ping", "set", "mset", "hmset", "setex", "lset"].map ascii then .status
  else if cmd ∈ ["get", "getset", "substr", "getrange", "hget", "zscore", "zincrby", "lpop", "rpop",
      "lindex"].map ascii then .bulk
  else if cmd ∈ ["keys", "mget", "hmget", "hgetall", "hkeys", "hvals", "zrange", "zrevrange",
      "zrangebyscore", "zrevrangebyscore", "lrange"].map ascii then .multiBulk
  else .int

/-- `req_desc` behind `convert_req`: strategy and type of the reply. -/
def reqDesc (cmd : Bytes) : Option (Strategy × Reply) :=
  (cmdTable cmd).map fun d => (d.1, replyType cmd)

/-- The end of a line. -/
def crlf : Bytes := ascii "\r\n"

/-- `snprintf` of a number, a line of its own. -/
def headerLine (c : Char) (n : ℤ) : Bytes := chr c :: (str n ++ crlf)

/-- A string with its length before it. -/
def bulkString (val : Bytes) : Bytes := headerLine '$' (toInt val.length) ++ val ++ crlf

/-- What stands for no value. -/
def nilBulk : Bytes := ascii "$-1\r\n"

/-- The loop of `MGET` and `HMGET` over the keys of the request, with `resp_it` in the pairs. -/
def mergeReply : List Bytes → List Bytes → Bytes
  | [], _ => []
  | _ :: keys, [] => nilBulk ++ mergeReply keys []
  | reqKey :: keys, respKey :: rest =>
      if reqKey ≠ respKey then nilBulk ++ mergeReply keys (respKey :: rest)
      else bulkString (rest.headD []) ++ mergeReply keys rest.tail

/-- The strings at the odd places, where `withscores` is not asked for. -/
def everySecond : List Bytes → List Bytes
  | [] => []
  | [val] => [val]
  | val :: _ :: rest => val :: everySecond rest

/-- `send_resp`: what is appended to the output. -/
def sendResp (reqDesc : Option (Strategy × Reply)) (recvString resp : List Bytes) : Bytes :=
  match resp with
  | [] => []
  | status :: vals =>
      if status ≠ ascii "ok" then
        if status = ascii "error" ∨ status = ascii "fail" ∨ status = ascii "client_error" then
          ascii "-ERR " ++ vals.headD [] ++ crlf
        else if status = ascii "not_found" then nilBulk
        else if status = ascii "noauth" then ascii "-NOAUTH " ++ vals.headD [] ++ crlf
        else ascii "-ERR server error\r\n"
      else
        match reqDesc with
        | none => headerLine '*' (toInt resp.length - 1) ++ vals.flatMap bulkString
        | some (strategy, reply) =>
            if strategy = .ping then ascii "+PONG\r\n"
            else if reply = .status then ascii "+OK\r\n"
            else if reply = .bulk then
              match vals with
              | [] => ascii "$0\r\n"
              | val :: _ => bulkString val
            else if reply = .int then
              match vals with
              | [] => ascii "$0\r\n"
              | val :: _ => ascii ":" ++ val ++ crlf
            else if strategy = .mget ∨ strategy = .hmget then
              let skipped : ℕ := if strategy = .mget then 1 else 2
              if resp.length % 2 ≠ 1 then ascii "*0"
              else
                headerLine '*' (toInt recvString.length - skipped) ++
                  mergeReply (recvString.drop skipped) vals
            else
              let withscores : Bool :=
                if strategy = .zrange ∨ strategy = .zrevrange then
                  recvString[4]? = some (ascii "withscores")
                else if strategy = .zrangebyscore ∨ strategy = .zrevrangebyscore then
                  recvString.getLast? = some (ascii "withscores")
                else true
              if withscores then headerLine '*' (toInt resp.length - 1) ++ vals.flatMap bulkString
              else headerLine '*' ((toInt resp.length - 1).tdiv 2) ++ (everySecond vals).flatMap bulkString

end RedisLink

/-! ## The commands -/

/-- The pairs of the keys that are found. -/
def foundPairs (get : Bytes → Option Bytes) (keys : List Bytes) : List Bytes :=
  keys.flatMap fun key =>
    match get key with
    | none => []
    | some val => [key, val]

/-- `proc_multi_get`. -/
def procMultiGet (db : Db) (req : Packet) : List Bytes :=
  if req.length < 2 then [ascii "client_error", ascii "wrong number of arguments"]
  else ascii "ok" :: foundPairs (Kv.get db) (req.drop 1)

/-- `proc_multi_hget`. -/
def procMultiHget (db : Db) (req : Packet) : List Bytes :=
  if req.length < 3 then [ascii "client_error", ascii "wrong number of arguments"]
  else ascii "ok" :: foundPairs (hget db (req[1]?.getD [])) (req.drop 2)

namespace RedisLink

/-- A request of a client and its reply: `recv_req` converts the request, `proc` runs the command, and
`send_resp` looks at the command that was converted. -/
def respond (toScore : ℤ → Bytes → ℤ × ℤ) (errno : ℤ) (proc : Packet → List Bytes) (req : Packet) : Bytes :=
  let recvString := (convertReq toScore errno req).1
  sendResp (reqDesc (toLower (req.headD []))) recvString (proc recvString)

/-! ## What the client wants -/

/-- An element: no value, or one with its length before it. -/
def elementReply : Option Bytes → Bytes
  | none => ascii "$-1\r\n"
  | some val => ascii "$" ++ decimal val.length ++ crlf ++ val ++ crlf

/-- **An array of elements**, with their number before them. -/
def arrayReply (elements : List (Option Bytes)) : Bytes :=
  ascii "*" ++ decimal elements.length ++ crlf ++ elements.flatMap elementReply

/-! ## The walk over keys and pairs -/

theorem bulkString_eq {val : Bytes} (h : val.length < 2 ^ 31) : bulkString val = elementReply (some val) := by
  rw [bulkString, headerLine, toInt_of_lt h, str_natCast, elementReply]
  simp [ascii]

/-- A key without a value is not among the pairs that are left. -/
theorem foundPairs_head_ne {get : Bytes → Option Bytes} {keys rest : List Bytes} {key respKey : Bytes}
    (hkey : get key = none) (h : foundPairs get keys = respKey :: rest) : key ≠ respKey := by
  induction keys with
  | nil => cases h
  | cons k keys ih =>
      rw [foundPairs, List.flatMap_cons] at h
      cases hk : get k with
      | none =>
          simp only [hk, List.nil_append] at h
          exact ih h
      | some val =>
          simp only [hk, List.cons_append, List.cons.injEq] at h
          rintro rfl
          rw [← h.1, hk] at hkey
          cases hkey

/-- **The walk is in step**: over the keys that are left and the pairs of these keys it writes one element
for each key. -/
theorem mergeReply_foundPairs (get : Bytes → Option Bytes) (keys : List Bytes)
    (hsize : ∀ key ∈ keys, ∀ val, get key = some val → val.length < 2 ^ 31) :
    mergeReply keys (foundPairs get keys) = (keys.map get).flatMap elementReply := by
  induction keys with
  | nil => rfl
  | cons key keys ih =>
      have ih := ih fun k hk => hsize k (List.mem_cons_of_mem key hk)
      rw [List.map_cons, List.flatMap_cons, ← ih, foundPairs, List.flatMap_cons]
      cases hkey : get key with
      | none =>
          -- the pairs stay where they are
          show mergeReply (key :: keys) (foundPairs get keys) = nilBulk ++ mergeReply keys (foundPairs get keys)
          cases hpairs : foundPairs get keys with
          | nil => rfl
          | cons respKey rest => rw [mergeReply, if_pos (foundPairs_head_ne hkey hpairs)]
      | some val =>
          show mergeReply (key :: keys) (key :: val :: foundPairs get keys) = _
          rw [mergeReply, if_neg (not_not.mpr rfl), List.headD_cons, List.tail_cons,
            bulkString_eq (hsize key List.mem_cons_self val hkey)]

theorem length_foundPairs_even (get : Bytes → Option Bytes) (keys : List Bytes) :
    (foundPairs get keys).length % 2 = 0 := by
  induction keys with
  | nil => rfl
  | cons key keys ih =>
      rw [foundPairs, List.flatMap_cons]
      cases get key with
      | none => exact ih
      | some val =>
          show ((foundPairs get keys).length + 1 + 1) % 2 = 0
          omega

/-- `send_resp` behind one of the two commands. -/
theorem sendResp_foundPairs {strategy : Strategy} (hstrategy : strategy = .mget ∨ strategy = .hmget)
    {recvString keys : List Bytes} {skipped : ℕ} (hskipped : skipped = if strategy = .mget then 1 else 2)
    (hkeys : recvString.drop skipped = keys) (hlength : recvString.length = keys.length + skipped)
    (hcount : recvString.length < 2 ^ 31) (get : Bytes → Option Bytes)
    (hsize : ∀ key ∈ keys, ∀ val, get key = some val → val.length < 2 ^ 31) :
    sendResp (some (strategy, .multiBulk)) recvString (ascii "ok" :: foundPairs get keys) =
      arrayReply (keys.map get) := by
  have hodd : (ascii "ok" :: foundPairs get keys).length % 2 = 1 := by
    have := length_foundPairs_even get keys
    rw [List.length_cons]
    omega
  have hnumber : toInt recvString.length - (skipped : ℤ) = (keys.length : ℤ) := by
    rw [toInt_of_lt hcount]
    omega
  have hping : strategy ≠ .ping := by
    rcases hstrategy with rfl | rfl <;> decide
  simp only [sendResp, hping, hstrategy, hodd, ← hskipped, hkeys, hnumber]
  rw [arrayReply, mergeReply_foundPairs get keys hsize, headerLine, str_natCast, List.length_map]
  simp [ascii]

/-! ## The two requests -/

theorem convertReq_mget (toScore : ℤ → Bytes → ℤ × ℤ) (errno : ℤ) {cmd : Bytes}
    (hcmd : toLower cmd = ascii "mget") (keys : List Bytes) :
    (convertReq toScore errno (cmd :: keys)).1 = ascii "multi_get" :: keys := by
  have htable : cmdTable (ascii "mget") = some (.mget, ascii "multi_get") := by decide +kernel
  simp only [convertReq, List.headD_cons, hcmd, htable, List.tail_cons]

theorem convertReq_hmget (toScore : ℤ → Bytes → ℤ × ℤ) (errno : ℤ) {cmd : Bytes}
    (hcmd : toLower cmd = ascii "hmget") (args : List Bytes) :
    (convertReq toScore errno (cmd :: args)).1 = ascii "multi_hget" :: args := by
  have htable : cmdTable (ascii "hmget") = some (.hmget, ascii "multi_hget") := by decide +kernel
  simp only [convertReq, List.headD_cons, hcmd, htable, List.tail_cons]

theorem respond_mget (toScore : ℤ → Bytes → ℤ × ℤ) (errno : ℤ) (db : Db) {cmd : Bytes}
    (hcmd : toLower cmd = ascii "mget") {keys : List Bytes} (hkeys : keys ≠ [])
    (hcount : (cmd :: keys).length < 2 ^ 31)
    (hsize : ∀ key ∈ keys, ∀ val, Kv.get db key = some val → val.length < 2 ^ 31) :
    respond toScore errno (procMultiGet db) (cmd :: keys) = arrayReply (keys.map (Kv.get db)) := by
  have hdesc : reqDesc (ascii "mget") = some (.mget, .multiBulk) := by decide +kernel
  have hpos := List.length_pos_iff.mpr hkeys
  rw [respond, List.headD_cons, hcmd, hdesc, convertReq_mget toScore errno hcmd, procMultiGet,
    if_neg (by rw [List.length_cons]; omega)]
  exact sendResp_foundPairs (Or.inl rfl) rfl rfl rfl hcount (Kv.get db) hsize

theorem respond_hmget (toScore : ℤ → Bytes → ℤ × ℤ) (errno : ℤ) (db : Db) {cmd : Bytes}
    (hcmd : toLower cmd = ascii "hmget") (name : Bytes) {keys : List Bytes} (hkeys : keys ≠ [])
    (hcount : (cmd :: name :: keys).length < 2 ^ 31)
    (hsize : ∀ key ∈ keys, ∀ val, hget db name key = some val → val.length < 2 ^ 31) :
    respond toScore errno (procMultiHget db) (cmd :: name :: keys) =
      arrayReply (keys.map (hget db name)) := by
  have hdesc : reqDesc (ascii "hmget") = some (.hmget, .multiBulk) := by decide +kernel
  have hpos := List.length_pos_iff.mpr hkeys
  rw [respond, List.headD_cons, hcmd, hdesc, convertReq_hmget toScore errno hcmd, procMultiHget,
    if_neg (by simp only [List.length_cons]; omega)]
  exact sendResp_foundPairs (Or.inr rfl) rfl rfl rfl hcount (hget db name) hsize

end RedisLink

/-- **Answers line up with the request**: for every database and all keys, at least one, the reply to `MGET`
is the array of what is stored under the keys, in their order, and so is the reply to `HMGET` for a hash.
Sizes are below `2^31`, as `int` numbers of arguments and of bytes in a buffer are. -/
theorem mget_lines_up (toScore : ℤ → Bytes → ℤ × ℤ) (errno : ℤ) (db : Db) (cmd : Bytes)
    (keys : List Bytes) (hkeys : keys ≠ []) :
    (RedisLink.toLower cmd = ascii "mget" → (cmd :: keys).length < 2 ^ 31 →
      (∀ key ∈ keys, ∀ val, Kv.get db key = some val → val.length < 2 ^ 31) →
      RedisLink.respond toScore errno (procMultiGet db) (cmd :: keys) =
        RedisLink.arrayReply (keys.map (Kv.get db))) ∧
    ∀ name, RedisLink.toLower cmd = ascii "hmget" → (cmd :: name :: keys).length < 2 ^ 31 →
      (∀ key ∈ keys, ∀ val, hget db name key = some val → val.length < 2 ^ 31) →
      RedisLink.respond toScore errno (procMultiHget db) (cmd :: name :: keys) =
        RedisLink.arrayReply (keys.map (hget db name)) := by
  constructor
  · intro hcmd hcount hsize
    exact RedisLink.respond_mget toScore errno db hcmd hkeys hcount hsize
  · intro name hcmd hcount hsize
    exact RedisLink.respond_hmget toScore errno db hcmd name hkeys hcount hsize

/-- A key twice and one that is not stored between. -/
theorem mget_lines_up_sample :
    [ascii "a", ascii "b", ascii "a"] ≠ [] ∧
      RedisLink.respond (fun errno _ => (0, errno)) 0
          (procMultiGet (OrderedMap.empty.put (encodeKvKey (ascii "a")) (.bytes (ascii "x"))))
          [ascii "MGET", ascii "a", ascii "b", ascii "a"] =
        RedisLink.arrayReply ([ascii "a", ascii "b", ascii "a"].map
          (Kv.get (OrderedMap.empty.put (encodeKvKey (ascii "a")) (.bytes (ascii "x"))))) := by
  refine ⟨by simp, (mget_lines_up _ _ _ _ _ (by simp)).1 (by decide) (by decide) ?_⟩
  intro key hkey val hval
  rw [Kv.get, OrderedMap.get_put] at hval
  split at hval
  · rw [← Option.some.inj hval]
    decide
  · cases hval

/-- **Without a key** the reply is an error, and no array. -/
theorem mget_without_keys :
    RedisLink.respond (fun errno _ => (0, errno)) 0 (procMultiGet OrderedMap.empty) [ascii "mget"] =
        ascii "-ERR wrong number of arguments\r\n" ∧
      RedisLink.respond (fun errno _ => (0, errno)) 0 (procMultiGet OrderedMap.empty) [ascii "mget"] ≠
        RedisLink.arrayReply ([].map (Kv.get OrderedMap.empty)) := by
  decide +kernel

end Ssdb
