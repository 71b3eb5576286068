/-
# Requests in the Redis protocol

`ssdb-master/src/net/link_redis.cpp`: `Link::recv` hands an input that starts with `*` to
`RedisLink::recv_req`, which parses one request (`parse_req`) and converts it to a command of the server
(`convert_req`).

* `parse_req` starts at the head of the input on every call.  It decides on `errno`, which it does not
  clear: `strtol` leaves it alone unless the number is out of range.  The byte that it compares with
  `*`, and the bytes from which `strtol` reads, may lie behind the input; `behind` is what stands there.
* `convert_req` reads numbers with `str_to_int` and `str_to_int64`, which leave their verdict in `errno`.

`toScore` stands for `(int64_t)Bytes::Double()`, a conversion in floating point, and for what it does to
`errno`.  The types of the replies, which only `send_resp` uses, are left out of the table of commands.
-/
import DoudizhuBackend.Ssdb.Numbers
import DoudizhuBackend.Ssdb.Wire

namespace Ssdb.RedisLink

/-! ## The parser -/

/-- What `parse_req` returns, with what is in `recv_bytes`: -1, 0, or 1 with the input that is left. -/
inductive Outcome where
  | error (recvBytes : Packet)
  | notReady
  | request (recvBytes : Packet) (rest : Bytes)
  deriving DecidableEq

/-- A line feed or a carriage return. -/
def isLineEnd (b : Byte) : Bool := b = newline ∨ b = carriageReturn

/-- The optional LF behind a string, whose first byte behind the data has been skipped. -/
def skipNewline : Bytes → Bytes
  | [] => []
  | b :: rest => if b = newline then rest else b :: rest

/-- `errno` behind `strtol`. -/
def errnoOfStrtol (errno : ℤ) (s : Bytes) : ℤ := if IsInt64 (readInt s) then errno else erange

/-- The loop of `parse_req`, whose turns the length of the input bounds; `numArgs` is 0 before the first
line.  The outcome, and `errno` behind it. -/
def parseLoop (behind : Bytes) : ℕ → ℤ → ℤ → Packet → Bytes → Outcome × ℤ
  | 0, errno, _, _, _ => (.notReady, errno)
  | turns + 1, errno, numArgs, recvBytes, ptr =>
      let line := ptr.takeWhile (· ≠ newline)
      if line.length = ptr.length then (.notReady, errno)
      else
        let number := (ptr ++ behind).drop 1  -- skip '$' or '*'
        let errno := errnoOfStrtol errno number
        let len := atoi number
        let body := ptr.drop (line.length + 1)
        if errno = einval then (.error recvBytes, errno)
        else if len < 0 then (.error recvBytes, errno)
        else if numArgs = 0 then
          if len ≤ 0 then (.error recvBytes, errno) else parseLoop behind turns errno len recvBytes body
        else if body.length < len.toNat + 1 then (.notReady, errno)
        else
          let recvBytes := recvBytes ++ [body.take len.toNat]
          let rest := skipNewline (body.drop (len.toNat + 1))
          if numArgs = 1 then (.request recvBytes rest, errno)
          else parseLoop behind turns errno (numArgs - 1) recvBytes rest

/-- `parse_req`. -/
def parseReq (behind : Bytes) (errno : ℤ) (input : Bytes) : Outcome × ℤ :=
  -- ignore leading empty lines
  let ptr := input.dropWhile isLineEnd
  if (ptr ++ behind).head? ≠ some (chr '*') then (.error [], errno)
  else parseLoop behind (ptr.length + 1) errno 0 [] ptr

/-! ## The converter -/

/-- `STRATEGY_*`. -/
inductive Strategy where
  | auto | ping | mget | hmget | hgetall | hkeys | hvals | setex | zrange | zrevrange | zrangebyscore
  | zrevrangebyscore | zadd | zincrby | remrangebyrank | remrangebyscore
  deriving DecidableEq

/-- `cmds_raw`: strategy, name for Redis, name for the server. -/
def cmdsRaw : List (Strategy × String × String) :=
  [(.ping, "ping", "ping"),
    (.auto, "get", "get"), (.auto, "getset", "getset"), (.auto, "set", "set"), (.auto, "setnx", "setnx"),
    (.auto, "exists", "exists"), (.auto, "incr", "incr"), (.auto, "decr", "decr"), (.auto, "ttl", "ttl"),
    (.auto, "expire", "expire"), (.auto, "getbit", "getbit"), (.auto, "setbit", "setbit"),
    (.auto, "strlen", "strlen"), (.auto, "bitcount", "bitcount"), (.auto, "substr", "getrange"),
    (.auto, "getrange", "getrange"), (.auto, "keys", "keys"),
    (.auto, "hset", "hset"), (.auto, "hget", "hget"), (.auto, "hexists", "hexists"),
    (.auto, "del", "multi_del"), (.auto, "mset", "multi_set"), (.auto, "incrby", "incr"),
    (.auto, "decrby", "decr"),
    (.auto, "hmset", "multi_hset"), (.auto, "hdel", "multi_hdel"), (.auto, "hmdel", "multi_hdel"),
    (.auto, "hlen", "hsize"), (.auto, "hincrby", "hincr"),
    (.auto, "zcard", "zsize"), (.auto, "zscore", "zget"), (.auto, "zrem", "multi_zdel"),
    (.auto, "zrank", "zrank"), (.auto, "zrevrank", "zrrank"), (.auto, "zcount", "zcount"),
    (.remrangebyrank, "zremrangebyrank", "zremrangebyrank"),
    (.remrangebyscore, "zremrangebyscore", "zremrangebyscore"),
    (.mget, "mget", "multi_get"), (.hmget, "hmget", "multi_hget"),
    (.hgetall, "hgetall", "hgetall"), (.hkeys, "hkeys", "hkeys"), (.hvals, "hvals", "hvals"),
    (.setex, "setex", "setx"), (.zrange, "zrange", "zrange"), (.zrevrange, "zrevrange", "zrrange"),
    (.zadd, "zadd", "multi_zset"), (.zincrby, "zincrby", "zincr"),
    (.zrangebyscore, "zrangebyscore", "zscan"), (.zrevrangebyscore, "zrevrangebyscore", "zrscan"),
    (.auto, "lpush", "qpush_front"), (.auto, "rpush", "qpush_back"), (.auto, "lpop", "qpop_front"),
    (.auto, "rpop", "qpop_back"), (.auto, "llen", "qsize"), (.auto, "lsize", "qsize"),
    (.auto, "lindex", "qget"), (.auto, "lset", "qset"), (.auto, "lrange", "qslice")]

/-- `cmd_table.find`. -/
def cmdTable (cmd : Bytes) : Option (Strategy × Bytes) :=
  (cmdsRaw.find? fun d => ascii d.2.1 = cmd).map fun d => (d.1, ascii d.2.2)

/-- `strtolower`. -/
def toLower (s : Bytes) : Bytes :=
  s.map fun b => if 65 ≤ b.val ∧ b.val ≤ 90 then b + 32 else b

/-- The pairs of `ZADD`, the scores converted. -/
def zaddPairs (toScore : ℤ → Bytes → ℤ × ℤ) : ℤ → List Bytes → Packet × ℤ
  | errno, score :: key :: rest =>
      let (s, errno) := toScore errno score
      let (pairs, errno) := zaddPairs toScore errno rest
      (key :: str s :: pairs, errno)
  | errno, _ => ([], errno)

/-- The count of `ZRANGE` and `ZREVRANGE`, an `int64_t`. -/
def rangeSize (first last : ℤ) : ℤ := if last = -1 then -1 else (last - first + 1).bmod (2 ^ 64)

/-- `ZRANGE` and `ZREVRANGE`: offset and count for first and last index, where the two are forwarded. -/
def convertRange (errno : ℤ) : Packet → Packet × ℤ
  | _ :: name :: start :: stop :: options =>
      let (first, errno) := strToInt64 errno start
      let (last, errno) := strToInt64 errno stop
      let option := (options.head?.map toLower).toList
      if (0 ≤ first ∧ 0 ≤ last) ∨ last = -1
      then (name :: start :: str (rangeSize first last) :: option, errno)
      else (option, errno)
  | _ => ([], errno)

/-- The options of `ZRANGEBYSCORE`: `WITHSCORES`, and offset and count behind `LIMIT`. -/
structure ScoreOptions where
  afterLimit : Bool
  withscores : Bytes
  offset : Bytes
  count : Bytes

/-- The options with one more word read. -/
def ScoreOptions.read (o : ScoreOptions) (s : Bytes) : ScoreOptions :=
  let o :=
    if o.afterLimit then
      if o.offset = [] then { o with offset := s } else { o with count := s, afterLimit := false }
    else o
  if toLower s = ascii "withscores" then { o with withscores := toLower s }
  else if toLower s = ascii "limit" then { o with afterLimit := true }
  else o

/-- A bound of `ZRANGEBYSCORE`; one behind `(` is excluded. -/
def scoreBound (errno : ℤ) (dir : ℤ) (s : Bytes) : Bytes × ℤ :=
  if s = ascii "-inf" ∨ s = ascii "+inf" then ([], errno)
  else if s.head? = some (chr '(') then
    let (n, errno) := strToInt errno s.tail
    (str ((n + dir).bmod (2 ^ 32)), errno)
  else (s, errno)

/-- `ZRANGEBYSCORE`, with `dir` 1, and `ZREVRANGEBYSCORE`, with `dir` -1. -/
def convertByScore (errno : ℤ) (dir : ℤ) : Packet → Packet × ℤ
  | _ :: name :: smin :: smax :: options =>
      let o := options.foldl ScoreOptions.read ⟨false, [], [], []⟩
      if smin = [] ∨ smax = [] then ([], errno)
      else
        let (low, errno) := scoreBound errno dir smin
        let (high, errno) := scoreBound errno (-dir) smax
        ([name, [], low, high, if o.offset = [] then ascii "0" else o.offset,
          if o.count = [] then ascii "2000000000" else o.count, o.withscores], errno)
  | _ => ([], errno)

/-- `convert_req`: the command for the server, and `errno` behind it. -/
def convertReq (toScore : ℤ → Bytes → ℤ × ℤ) (errno : ℤ) (recvBytes : Packet) : Packet × ℤ :=
  let cmd := toLower (recvBytes.headD [])
  match cmdTable cmd with
  | none => (cmd :: recvBytes.tail, errno)
  | some (strategy, ssdbCmd) =>
      let (args, errno) : Packet × ℤ :=
        match strategy with
        | .hkeys | .hvals =>
            match recvBytes with
            | [_, name] => ([name, [], [], ascii "2000000000"], errno)
            | _ => ([], errno)
        | .setex | .zincrby =>
            match recvBytes with
            | [_, a, b, c] => ([a, c, b], errno)
            | _ => ([], errno)
        | .zadd =>
            match recvBytes with
            | _ :: name :: pairs =>
                let (pairs, errno) := zaddPairs toScore errno pairs
                (name :: pairs, errno)
            | _ => ([], errno)
        | .remrangebyrank | .remrangebyscore =>
            match recvBytes with
            | _ :: a :: b :: c :: _ => ([a, b, c], errno)
            | _ => ([], errno)
        | .zrange | .zrevrange => convertRange errno recvBytes
        | .zrangebyscore => convertByScore errno 1 recvBytes
        | .zrevrangebyscore => convertByScore errno (-1) recvBytes
        | .auto | .ping | .mget | .hmget | .hgetall => (recvBytes.tail, errno)
      (ssdbCmd :: args, errno)

/-- `recv_req`: `NULL`, or the input that is left and the command, no strings when it is not ready. -/
def recvReq (toScore : ℤ → Bytes → ℤ × ℤ) (behind : Bytes) (errno : ℤ) (input : Bytes) :
    Option (Bytes × Packet) × ℤ :=
  match parseReq behind errno input with
  | (.error _, errno) => (none, errno)
  | (.notReady, errno) => (some (input, []), errno)
  | (.request recvBytes rest, errno) =>
      let (recvString, errno) := convertReq toScore errno recvBytes
      (some (rest, recvString), errno)

end Ssdb.RedisLink
