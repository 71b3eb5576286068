/-
# The list of updates

`html/version_update/versionList.php` answers a client of version `a.b.c` with the updates that it
lacks.  Versions are compared by the number `100a + 10b + c`, which respects their order only while
`b` and `c` are small, and the sizes are added up for all configured versions, not only for those that
are listed.

`update_list_iff` says for which configurations the answer is right nevertheless.
-/
import DoudizhuBackend.PhpValue

open Php

namespace VersionList

/-! ## Numbers -/

/-- A whole number of PHP: an integer of 64 bits, or a `double`. -/
inductive Number where
  | int (n : ℤ)
  | double (n : ℤ)
  deriving DecidableEq

/-- The range of PHP's integers. -/
def IsLong (n : ℤ) : Prop := -2 ^ 63 ≤ n ∧ n < 2 ^ 63

instance (n : ℤ) : Decidable (IsLong n) := inferInstanceAs (Decidable (_ ∧ _))

/-- The number nearest to `n` among those with 53 significant bits, the even one of two. -/
def nearest (n : ℕ) : ℕ :=
  let unit := 2 ^ (Nat.log2 n - 52)
  let q := n / unit
  let r := n % unit
  if unit < 2 * r ∨ (2 * r = unit ∧ q % 2 = 1) then (q + 1) * unit else q * unit

/-- The `double` of a whole number. -/
def toDouble (n : ℤ) : ℤ := n.sign * nearest n.natAbs

namespace Number

/-- The exact value. -/
def value : Number → ℤ
  | int n => n
  | double n => n

/-- The value as a double. -/
def asDouble : Number → ℤ
  | int n => toDouble n
  | double n => n

/-- The result of an operation on two numbers; a result that is no integer of 64 bits is a
`double`. -/
def binary (op : ℤ → ℤ → ℤ) : Number → Number → Number
  | int a, int b =>
      if IsLong (op a b) then int (op a b) else double (toDouble (op (toDouble a) (toDouble b)))
  | x, y => double (toDouble (op x.asDouble y.asDouble))

/-- `+`. -/
def add : Number → Number → Number := binary (· + ·)

/-- `*`. -/
def mul : Number → Number → Number := binary (· * ·)

/-- `$x > $y`. -/
def gt : Number → Number → Bool
  | int a, int b => b < a
  | x, y => y.asDouble < x.asDouble

/-- A literal of the source. -/
def literal (n : ℕ) : Number := if IsLong n then int n else double (toDouble n)

theorem add_int {a b : ℤ} (h : IsLong (a + b)) : (int a).add (int b) = int (a + b) := if_pos h

theorem mul_int {a b : ℤ} (h : IsLong (a * b)) : (int a).mul (int b) = int (a * b) := if_pos h

end Number

/-! ## The loop -/

/-- `strtok($s, ".")`: the first part that is not empty, and what is left.  No part is `false`, which
counts as 0 like the empty string. -/
def strtok (cs : List Char) : List Char × List Char :=
  let rest := cs.dropWhile (· = '.')
  (rest.takeWhile (· ≠ '.'), (rest.dropWhile (· ≠ '.')).tail)

/-- `(int)$s`, cut to 64 bits. -/
def toInt (cs : List Char) : Number :=
  .int (max (-2 ^ 63) (min (Value.intval.intvalChars cs) (2 ^ 63 - 1)))

/-- The number by which versions are compared. -/
def weight (first second third : Number) : Number :=
  ((first.mul (.int 100)).add (second.mul (.int 10))).add third

/-- The number of a version: the weighted sum of its first three parts. -/
def versionNumber (version : String) : Number :=
  let first := strtok version.toList
  let second := strtok first.2
  let third := strtok second.2
  weight (toInt first.1) (toInt second.1) (toInt third.1)

/-- An entry of the answer. -/
structure Entry where
  versionUrl : String
  packageUrl : String
  deriving DecidableEq

/-- The answer. -/
structure Reply where
  code : ℕ
  list : List Entry
  clientOS : String
  totalSize : Number
  deriving DecidableEq

/-- The entry of a version. -/
def entry (serverAddr version : String) : Entry where
  versionUrl := serverAddr ++ version ++ "/version.php"
  packageUrl := serverAddr ++ version ++ "/Hi88.zip"

/-- One turn of the loop over `$serverVersionList`. -/
def turn (updateVersionSize : String → ℕ) (serverAddr : String) (clientVersion : Number)
    (s : List Entry × Number) (value : String) : List Entry × Number :=
  (if (versionNumber value).gt clientVersion then s.1 ++ [entry serverAddr value] else s.1,
    s.2.add (.literal (updateVersionSize value)))

/-- `versionList.php`, up to the printing of `$arr`. -/
def versionList (serverVersionList : List String) (updateVersionSize : String → ℕ)
    (serverAddr clientVersion clientOS : String) : Reply :=
  let r := serverVersionList.foldl
    (turn updateVersionSize serverAddr (versionNumber clientVersion)) ([], .int 0)
  { code := 200, list := r.1, clientOS := clientOS, totalSize := r.2 }

/-! ## Versions -/

/-- A numeral. -/
abbrev Numeral := {cs : List Char // cs ≠ [] ∧ ∀ c ∈ cs, c.isDigit = true}

/-- A version `a.b.c`. -/
structure Version where
  first : Numeral
  second : Numeral
  third : Numeral

namespace Version

/-- The name of the directory of a version. -/
def text (v : Version) : String :=
  String.ofList (v.first.val ++ '.' :: (v.second.val ++ '.' :: v.third.val))

/-- The numbers `a`, `b` and `c`. -/
def parts (v : Version) : ℕ × ℕ × ℕ :=
  (digitsVal 10 v.first.val, digitsVal 10 v.second.val, digitsVal 10 v.third.val)

/-- The version `v` is greater than `u`, part by part. -/
def Newer (u v : Version) : Prop :=
  u.parts.1 < v.parts.1 ∨ u.parts.1 = v.parts.1 ∧
    (u.parts.2.1 < v.parts.2.1 ∨ u.parts.2.1 = v.parts.2.1 ∧ u.parts.2.2 < v.parts.2.2)

instance (u v : Version) : Decidable (Newer u v) := inferInstanceAs (Decidable (_ ∨ _ ∧ (_ ∨ _ ∧ _)))

/-- A part as an integer of PHP. -/
def part (n : ℕ) : Number := .int (min n (2 ^ 63 - 1))

/-- The number `100a + 10b + c`, as PHP adds it up. -/
def weighed (v : Version) : Number := weight (part v.parts.1) (part v.parts.2.1) (part v.parts.2.2)

end Version

/-! ## Reading a version -/

theorem numeral_ne_dot {cs : List Char} (h : ∀ c ∈ cs, c.isDigit = true) : ∀ c ∈ cs, c ≠ '.' := by
  rintro c hc rfl
  cases h '.' hc

/-- `strtok` on text that starts with a numeral. -/
theorem strtok_numeral (n : Numeral) (rest : List Char) (hrest : ∀ c ∈ rest.head?, c = '.') :
    strtok (n.val ++ rest) = (n.val, rest.tail) := by
  obtain ⟨cs, hne, hdigits⟩ := n
  have hdot := numeral_ne_dot hdigits
  obtain ⟨c, cs', rfl⟩ := List.exists_cons_of_ne_nil hne
  have hc : c ≠ '.' := hdot c List.mem_cons_self
  -- no dot comes before the numeral
  have hdrop : ((c :: cs') ++ rest).dropWhile (· = '.') = (c :: cs') ++ rest := by
    simp [hc]
  have hall : ∀ x ∈ c :: cs', decide (x ≠ '.') = true := fun x hx => decide_eq_true (hdot x hx)
  have htake : ((c :: cs') ++ rest).takeWhile (· ≠ '.') = c :: cs' := by
    rw [List.takeWhile_append_of_pos hall]
    cases rest with
    | nil => simp
    | cons d rest => simp [hrest d rfl]
  have hleft : ((c :: cs') ++ rest).dropWhile (· ≠ '.') = rest := by
    rw [List.dropWhile_append_of_pos hall]
    cases rest with
    | nil => rfl
    | cons d rest => simp [hrest d rfl]
  rw [strtok, hdrop, htake, hleft]

/-- `(int)` of a numeral. -/
theorem toInt_numeral (n : Numeral) : toInt n.val = Version.part (digitsVal 10 n.val) := by
  obtain ⟨cs, hne, hdigits⟩ := n
  have hread : Value.intval.intvalChars cs = digitsVal 10 cs := by
    obtain ⟨c, cs', rfl⟩ := List.exists_cons_of_ne_nil hne
    obtain ⟨hblank, hminus, hplus⟩ := not_isBlank_of_isDigit (hdigits c List.mem_cons_self)
    have htake : (c :: cs').takeWhile Char.isDigit = c :: cs' := List.takeWhile_eq_self_iff.mpr hdigits
    have hsign : splitSign (c :: cs') = (false, c :: cs') := by
      unfold splitSign
      split
      · rename_i heq
        exact absurd (List.cons.inj heq).1 hminus
      · rename_i heq
        exact absurd (List.cons.inj heq).1 hplus
      · rfl
    have hdrop : (c :: cs').dropWhile isBlank = c :: cs' := by simp [hblank]
    unfold Value.intval.intvalChars
    rw [hdrop, hsign]
    dsimp only
    rw [htake]
    rfl
  show Number.int (max (-2 ^ 63) (min (Value.intval.intvalChars cs) (2 ^ 63 - 1))) =
    Number.int (min (digitsVal 10 cs : ℕ) (2 ^ 63 - 1))
  rw [hread, max_eq_right]
  exact le_min (by omega) (by decide)

/-- The text of a version tells its parts. -/
theorem text_injective {u v : Version} (h : u.text = v.text) : u = v := by
  have hlist := congrArg String.toList h
  simp only [Version.text, String.toList_ofList] at hlist
  have hfirst := congrArg strtok hlist
  rw [strtok_numeral _ _ (by simp), strtok_numeral _ _ (by simp), Prod.mk.injEq] at hfirst
  have hsecond := congrArg strtok hfirst.2
  rw [List.tail_cons, List.tail_cons, strtok_numeral _ _ (by simp), strtok_numeral _ _ (by simp),
    Prod.mk.injEq] at hsecond
  have hthird : u.third.val = v.third.val := hsecond.2
  cases u
  cases v
  simp only [Version.mk.injEq]
  exact ⟨Subtype.ext hfirst.1, Subtype.ext hsecond.1, Subtype.ext hthird⟩

theorem versionNumber_text (v : Version) : versionNumber v.text = v.weighed := by
  have hfirst := strtok_numeral v.first ('.' :: (v.second.val ++ '.' :: v.third.val)) (by simp)
  have hsecond := strtok_numeral v.second ('.' :: v.third.val) (by simp)
  have hthird := strtok_numeral v.third [] (by simp)
  rw [List.append_nil] at hthird
  unfold versionNumber
  rw [Version.text, String.toList_ofList, hfirst]
  dsimp only [List.tail_cons]
  rw [hsecond]
  dsimp only [List.tail_cons]
  rw [hthird, toInt_numeral, toInt_numeral, toInt_numeral]
  rfl

/-! ## When the answer is right -/

theorem entry_injective (serverAddr : String) {s t : String} (h : entry serverAddr s = entry serverAddr t) :
    s = t := by
  have hurl := congrArg (String.toList ∘ Entry.versionUrl) h
  simpa [entry, String.toList_append, String.toList_inj] using hurl

/-- The entries that the loop has collected. -/
theorem foldl_turn_fst (size : String → ℕ) (addr : String) (client : Number) (values : List String) :
    ∀ s : List Entry × Number, (values.foldl (turn size addr client) s).1 =
      s.1 ++ (values.filter fun value => (versionNumber value).gt client).map (entry addr) := by
  induction values with
  | nil => intro s; simp
  | cons value values ih =>
      intro s
      rw [List.foldl_cons, ih, turn, List.filter_cons]
      split <;> simp

/-- The sum of the sizes, as long as it is an integer of 64 bits. -/
theorem foldl_turn_snd (size : String → ℕ) (addr : String) (client : Number) (values : List String) :
    ∀ (es : List Entry) (n : ℕ), n + (values.map size).sum < 2 ^ 63 →
      (values.foldl (turn size addr client) (es, .int n)).2 = .int (n + (values.map size).sum : ℕ) := by
  induction values with
  | nil => intro es n _; simp
  | cons value values ih =>
      intro es n hfit
      rw [List.map_cons, List.sum_cons] at hfit ⊢
      have hsize : IsLong (size value : ℤ) := by
        constructor <;> omega
      have hsum : IsLong ((n : ℤ) + size value) := by
        constructor <;> omega
      have hadd : (Number.int n).add (.literal (size value)) = .int (n + size value : ℕ) := by
        rw [Number.literal, if_pos hsize, Number.add_int hsum, Nat.cast_add]
      rw [List.foldl_cons, turn, hadd, ih _ _ (by omega), Nat.add_assoc]

/-- The sum over a part of a list is the sum over all of it exactly if the rest adds nothing. -/
theorem sum_filter_eq_sum_iff {α : Type} (p : α → Prop) [DecidablePred p] (f : α → ℕ) (l : List α) :
    ((l.filter p).map f).sum = (l.map f).sum ↔ ∀ x ∈ l, ¬ p x → f x = 0 := by
  have hle : ∀ l : List α, ((l.filter p).map f).sum ≤ (l.map f).sum := by
    intro l
    induction l with
    | nil => simp
    | cons x l ih =>
        rw [List.filter_cons]
        split <;> simp <;> omega
  induction l with
  | nil => simp
  | cons x l ih =>
      have hle' := hle l
      rw [List.forall_mem_cons, List.filter_cons]
      by_cases hx : p x
      · simp [hx, ih]
      · simp only [hx, decide_false, Bool.false_eq_true, if_false, List.map_cons, List.sum_cons,
          not_false_eq_true, forall_true_left]
        constructor
        · intro h
          exact ⟨by omega, ih.mp (by omega)⟩
        · rintro ⟨hzero, hrest⟩
          rw [hzero, Nat.zero_add]
          exact ih.mpr hrest

/-- The answer lists exactly the updates that the client lacks, and adds up their sizes. -/
def Exact (vs : List Version) (size : String → ℕ) (addr : String) (client : Version) (r : Reply) : Prop :=
  r.list = (vs.filter fun v => client.Newer v).map (fun v => entry addr v.text) ∧
    r.totalSize.value = ((vs.filter fun v => client.Newer v).map fun v => size v.text).sum

/-- **The update list** is exact if and only if the weighed numbers compare as the versions do, and
every configured version that is not greater than the client's has size 0. -/
theorem update_list_iff (vs : List Version) (size : String → ℕ) (addr : String) (client : Version)
    (os : String) (hfit : (vs.map fun v => size v.text).sum < 2 ^ 63) :
    Exact vs size addr client (versionList (vs.map Version.text) size addr client.text os) ↔
      (∀ v ∈ vs, v.weighed.gt client.weighed = true ↔ client.Newer v) ∧
        ∀ v ∈ vs, ¬ client.Newer v → size v.text = 0 := by
  have hlist : (versionList (vs.map Version.text) size addr client.text os).list =
      (vs.filter fun v => v.weighed.gt client.weighed).map (fun v => entry addr v.text) := by
    show (List.foldl _ ([], Number.int 0) (vs.map Version.text)).1 = _
    have hfilter : vs.filter ((fun value => (versionNumber value).gt (versionNumber client.text)) ∘
        Version.text) = vs.filter fun v => v.weighed.gt client.weighed := by
      apply List.filter_congr
      intro v _
      rw [Function.comp_apply, versionNumber_text, versionNumber_text]
    rw [foldl_turn_fst, List.nil_append, List.filter_map, List.map_map, hfilter]
    rfl
  have htotal : (versionList (vs.map Version.text) size addr client.text os).totalSize =
      .int ((vs.map fun v => size v.text).sum : ℕ) := by
    have hmap : (vs.map Version.text).map size = vs.map fun v => size v.text := List.map_map
    have hsum := foldl_turn_snd size addr (versionNumber client.text) (vs.map Version.text) [] 0
      (by rw [hmap, Nat.zero_add]; exact hfit)
    rw [hmap, Nat.zero_add] at hsum
    exact hsum
  unfold Exact
  rw [hlist, htotal]
  have hsize : (Number.int ((vs.map fun v => size v.text).sum : ℕ)).value =
      (((vs.filter fun v => client.Newer v).map fun v => size v.text).sum : ℕ) ↔
        ∀ v ∈ vs, ¬ client.Newer v → size v.text = 0 := by
    rw [← sum_filter_eq_sum_iff, Number.value, Nat.cast_inj]
    exact eq_comm
  rw [hsize]
  refine and_congr_left fun _ => ?_
  constructor
  · intro h v hv
    -- an entry is in both lists or in none
    have hmem : entry addr v.text ∈ (vs.filter fun v => v.weighed.gt client.weighed).map
        (fun v => entry addr v.text) ↔ entry addr v.text ∈ (vs.filter fun v => client.Newer v).map
          (fun v => entry addr v.text) := by
      rw [h]
    simp only [List.mem_map, List.mem_filter, decide_eq_true_eq] at hmem
    constructor
    · intro hgt
      obtain ⟨u, ⟨-, hu⟩, htext⟩ := hmem.mp ⟨v, ⟨hv, hgt⟩, rfl⟩
      rw [← text_injective (entry_injective addr htext)]
      exact hu
    · intro hnewer
      obtain ⟨u, ⟨-, hu⟩, htext⟩ := hmem.mpr ⟨v, ⟨hv, hnewer⟩, rfl⟩
      rw [← text_injective (entry_injective addr htext)]
      exact hu
  · intro h
    have hfilter : (vs.filter fun v => v.weighed.gt client.weighed) =
        vs.filter fun v => client.Newer v := by
      apply List.filter_congr
      intro v hv
      rw [Bool.eq_iff_iff, h v hv, decide_eq_true_eq]
    rw [hfilter]

/-- The weighed number of a version with parts that are small enough for PHP's integers. -/
theorem weighed_eq (v : Version) (hfirst : v.parts.1 < 2 ^ 56) (hsecond : v.parts.2.1 < 2 ^ 56)
    (hthird : v.parts.2.2 < 2 ^ 56) :
    v.weighed = .int (100 * v.parts.1 + 10 * v.parts.2.1 + v.parts.2.2 : ℕ) := by
  unfold Version.weighed
  generalize v.parts = p at *
  obtain ⟨a, b, c⟩ := p
  dsimp only at *
  have hpart : ∀ n : ℕ, n < 2 ^ 56 → Version.part n = .int n := by
    intro n hn
    rw [Version.part, min_eq_left (by omega)]
  rw [hpart a hfirst, hpart b hsecond, hpart c hthird, weight, Number.mul_int (by constructor <;> omega),
    Number.mul_int (by constructor <;> omega), Number.add_int (by constructor <;> omega),
    Number.add_int (by constructor <;> omega)]
  congr 1
  push_cast
  ring

/-- With one digit for the second and the third part, the numbers compare as the versions do. -/
theorem gt_weighed_iff (u v : Version) (hu : u.parts.1 < 2 ^ 56 ∧ u.parts.2.1 < 10 ∧ u.parts.2.2 < 10)
    (hv : v.parts.1 < 2 ^ 56 ∧ v.parts.2.1 < 10 ∧ v.parts.2.2 < 10) :
    v.weighed.gt u.weighed = true ↔ u.Newer v := by
  rw [weighed_eq u hu.1 (by omega) (by omega), weighed_eq v hv.1 (by omega) (by omega), Number.gt,
    decide_eq_true_eq, Nat.cast_lt, Version.Newer]
  omega

/-- The version `1.0.n`. -/
def sampleVersion (n : Fin 10) : Version where
  first := ⟨['1'], by simp⟩
  second := ⟨['0'], by simp⟩
  third := ⟨[Nat.digitChar n], by simp [Nat.isDigit_digitChar]⟩

/-- Only the package of the last version has a size. -/
def sampleSize (version : String) : ℕ := if version = "1.0.2" then 1787 else 0

/-- A client that lacks the one configured version with a size. -/
theorem update_list_sample :
    Exact [sampleVersion 1, sampleVersion 2] sampleSize "http://a/" (sampleVersion 1)
      (versionList ["1.0.1", "1.0.2"] sampleSize "http://a/" "1.0.1" "ios") :=
  (update_list_iff [sampleVersion 1, sampleVersion 2] sampleSize "http://a/" (sampleVersion 1) "ios"
    (by decide +kernel)).mpr (by decide +kernel)

/-- The client that has the only configured version is told the size of that version. -/
theorem old_version_counted :
    ¬ ∀ (vs : List Version) (size : String → ℕ) (addr : String) (client : Version) (os : String),
      Exact vs size addr client (versionList (vs.map Version.text) size addr client.text os) := by
  intro h
  have htotal := (h [sampleVersion 1] (fun _ => 1787) "http://a/" (sampleVersion 1) "ios").2
  exact absurd htotal (by decide +kernel)

end VersionList
