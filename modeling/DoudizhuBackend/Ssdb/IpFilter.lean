/-
# The IP filter

`ssdb-master/src/util/ip_filter.h`, which the server asks before it accepts a connection.  A rule is a
full address (three dots) or the start of addresses; it is kept in an ordered set with a terminator behind
it, `=` or `@`, both greater than any character of an address.

* `checkHit` does not try the rules one after another: it takes the first string of the set that is greater
  than the address and tests that one.
* A rule that matches is therefore not found when another one stands between the address and every rule that
  matches (`Shadowed`), and exactly then (`IpFilter.checkHit_iff`).
* What the filter is for is said by `FilterRules`: the rules that are present, and the decision they give.
-/
import DoudizhuBackend.PrefixScan
import DoudizhuBackend.Ssdb.Bytes
import Mathlib.Data.Finset.Erase
import Mathlib.Data.Finset.Insert

namespace Ssdb

/-! ## The filter -/

/-- `std::set<std::string>`. -/
abbrev StringSet := OrderedMap Bytes Unit

/-- `is_full_ip`: there are three dots. -/
def isFullIp (ipPrefix : Bytes) : Bool := ipPrefix.count (chr '.') == 3

/-- The string that is kept for a rule. -/
def stored (ipPrefix : Bytes) : Bytes := ipPrefix ++ [if isFullIp ipPrefix then chr '=' else chr '@']

/-- The test of `check_hit` on the string it has found. -/
def hitBy (found ip : Bytes) : Bool :=
  let len := found.length - 1
  if found[len]? = some (chr '=') then found.take len == ip
  else if len < ip.length then ip.take len == found.take len
  else false

/-- `check_hit`; `upper_bound` is the first string greater than `ip`. -/
def checkHit (m : StringSet) (ip : Bytes) : Bool :=
  if m.entries.isEmpty then false
  else
    match (m.after ip).head? with
    | none => false
    | some (found, _) => hitBy found ip

/-- `all` and `*` are not rules. -/
def isAll (ipPrefix : Bytes) : Bool := ipPrefix == ascii "all" || ipPrefix == ascii "*"

/-- `IpFilter`. -/
structure IpFilter where
  allowAll : Bool
  deny : StringSet
  allow : StringSet

namespace IpFilter

/-- The constructor. -/
def new : IpFilter := ⟨true, OrderedMap.empty, OrderedMap.empty⟩

/-- `add_allow`; any prefix but `all` ends that all are allowed. -/
def addAllow (f : IpFilter) (ipPrefix : Bytes) : IpFilter :=
  if isAll ipPrefix then { f with allowAll := true }
  else { f with allowAll := false, allow := f.allow.put (stored ipPrefix) () }

/-- `del_allow`. -/
def delAllow (f : IpFilter) (ipPrefix : Bytes) : IpFilter :=
  if isAll ipPrefix then { f with allowAll := false }
  else { f with allow := f.allow.delete (stored ipPrefix) }

/-- `add_deny`; nothing happens for `all`. -/
def addDeny (f : IpFilter) (ipPrefix : Bytes) : IpFilter :=
  if isAll ipPrefix then f else { f with deny := f.deny.put (stored ipPrefix) () }

/-- `del_deny`. -/
def delDeny (f : IpFilter) (ipPrefix : Bytes) : IpFilter :=
  if isAll ipPrefix then f else { f with deny := f.deny.delete (stored ipPrefix) }

/-- `check_pass`. -/
def checkPass (f : IpFilter) (ip : Bytes) : Bool :=
  if checkHit f.deny ip then false
  else if checkHit f.allow ip then true
  else if f.allowAll then true
  else false

end IpFilter

/-- The calls that change a filter, from the configuration and from the commands of the local host. -/
inductive FilterCall where
  | addAllow (ipPrefix : Bytes)
  | delAllow (ipPrefix : Bytes)
  | addDeny (ipPrefix : Bytes)
  | delDeny (ipPrefix : Bytes)

/-- The filter after a call. -/
def IpFilter.call (f : IpFilter) : FilterCall → IpFilter
  | .addAllow ipPrefix => f.addAllow ipPrefix
  | .delAllow ipPrefix => f.delAllow ipPrefix
  | .addDeny ipPrefix => f.addDeny ipPrefix
  | .delDeny ipPrefix => f.delDeny ipPrefix

/-- The filter after a list of calls. -/
def IpFilter.run (calls : List FilterCall) : IpFilter := calls.foldl IpFilter.call IpFilter.new

/-! ## What it is for -/

/-- **The rules that are present**, and what happens to an address without a rule. -/
structure FilterRules where
  allowAll : Bool
  deny : Finset Bytes
  allow : Finset Bytes

/-- **A rule matches**: with three dots the equal address, otherwise the addresses that begin with it. -/
def RuleMatches (rule ip : Bytes) : Prop := if isFullIp rule then ip = rule else rule <+: ip

instance decidableRuleMatches (rule ip : Bytes) : Decidable (RuleMatches rule ip) :=
  inferInstanceAs (Decidable (if isFullIp rule then ip = rule else rule <+: ip))

/-- Some rule matches. -/
def Hit (rules : Finset Bytes) (ip : Bytes) : Prop := ∃ rule ∈ rules, RuleMatches rule ip

instance decidableHit (rules : Finset Bytes) (ip : Bytes) : Decidable (Hit rules ip) :=
  inferInstanceAs (Decidable (∃ rule ∈ rules, RuleMatches rule ip))

namespace FilterRules

/-- The rules without any rule: all are allowed. -/
def new : FilterRules := ⟨true, ∅, ∅⟩

/-- A rule is present from its `add` to its `del`; `all` and `*` are about `allowAll`, which the first
allowed address ends. -/
def call (r : FilterRules) : FilterCall → FilterRules
  | .addAllow ipPrefix =>
      if isAll ipPrefix then { r with allowAll := true }
      else { r with allowAll := false, allow := insert ipPrefix r.allow }
  | .delAllow ipPrefix =>
      if isAll ipPrefix then { r with allowAll := false } else { r with allow := r.allow.erase ipPrefix }
  | .addDeny ipPrefix => if isAll ipPrefix then r else { r with deny := insert ipPrefix r.deny }
  | .delDeny ipPrefix => if isAll ipPrefix then r else { r with deny := r.deny.erase ipPrefix }

/-- The rules after a list of calls. -/
def run (calls : List FilterCall) : FilterRules := calls.foldl call new

/-- **The decision of the rules**: a rule that denies comes first, then one that allows. -/
def pass (r : FilterRules) (ip : Bytes) : Bool :=
  if Hit r.deny ip then false else if Hit r.allow ip then true else r.allowAll

end FilterRules

/-- The four numbers of an IPv4 address. -/
structure Ipv4 where
  a : Byte
  b : Byte
  c : Byte
  d : Byte

/-- The address as `inet_ntop` prints it. -/
def Ipv4.text (ip : Ipv4) : Bytes :=
  decimal ip.a ++ chr '.' :: (decimal ip.b ++ chr '.' :: (decimal ip.c ++ chr '.' :: decimal ip.d))

/-- **A rule matches and is shadowed**: another string of the set is greater than the address and less than
those of all rules that match. -/
def Shadowed (rules : Finset Bytes) (ip : Bytes) : Prop :=
  Hit rules ip ∧
    ∃ rule ∈ rules, ip < stored rule ∧ ∀ rule' ∈ rules, RuleMatches rule' ip → stored rule < stored rule'

/-! ## Rules and their strings -/

theorem stored_injective : Function.Injective stored := by
  intro p q h
  exact (List.append_inj' h rfl).1

/-- A set of strings that keeps a set of rules. -/
def Represents (m : StringSet) (rules : Finset Bytes) : Prop :=
  ∀ s, m.get s = some () ↔ ∃ rule ∈ rules, stored rule = s

theorem represents_empty : Represents OrderedMap.empty ∅ := by
  intro s
  simp [OrderedMap.get_empty]

theorem Represents.put {m : StringSet} {rules : Finset Bytes} (h : Represents m rules) (rule : Bytes) :
    Represents (m.put (stored rule) ()) (insert rule rules) := by
  intro s
  rw [OrderedMap.get_put]
  split
  · rename_i hs
    exact iff_of_true rfl ⟨rule, Finset.mem_insert_self rule rules, hs.symm⟩
  · rename_i hs
    rw [h s]
    simp only [Finset.mem_insert, exists_eq_or_imp]
    exact ⟨Or.inr, fun hor => hor.resolve_left fun heq => hs heq.symm⟩

theorem Represents.delete {m : StringSet} {rules : Finset Bytes} (h : Represents m rules) (rule : Bytes) :
    Represents (m.delete (stored rule)) (rules.erase rule) := by
  intro s
  rw [OrderedMap.get_delete]
  split
  · rename_i hs
    refine iff_of_false (by simp) ?_
    rintro ⟨rule', hmem, rfl⟩
    exact (Finset.mem_erase.mp hmem).1 (stored_injective hs)
  · rename_i hs
    rw [h s]
    constructor
    · rintro ⟨rule', hmem, rfl⟩
      exact ⟨rule', Finset.mem_erase.mpr ⟨fun heq => hs (heq ▸ rfl), hmem⟩, rfl⟩
    · rintro ⟨rule', hmem, hstored⟩
      exact ⟨rule', (Finset.mem_erase.mp hmem).2, hstored⟩

/-- The filter keeps the rules. -/
structure IpFilter.Keeps (f : IpFilter) (r : FilterRules) : Prop where
  allowAll : f.allowAll = r.allowAll
  deny : Represents f.deny r.deny
  allow : Represents f.allow r.allow

/-- One call, in the filter and in its rules. -/
theorem IpFilter.keeps_call {f : IpFilter} {r : FilterRules} (h : f.Keeps r) (c : FilterCall) :
    (f.call c).Keeps (r.call c) := by
  cases c with
  | addAllow ipPrefix =>
      simp only [IpFilter.call, IpFilter.addAllow, FilterRules.call]
      split
      · exact ⟨rfl, h.deny, h.allow⟩
      · exact ⟨rfl, h.deny, h.allow.put ipPrefix⟩
  | delAllow ipPrefix =>
      simp only [IpFilter.call, IpFilter.delAllow, FilterRules.call]
      split
      · exact ⟨rfl, h.deny, h.allow⟩
      · exact ⟨h.allowAll, h.deny, h.allow.delete ipPrefix⟩
  | addDeny ipPrefix =>
      simp only [IpFilter.call, IpFilter.addDeny, FilterRules.call]
      split
      · exact h
      · exact ⟨h.allowAll, h.deny.put ipPrefix, h.allow⟩
  | delDeny ipPrefix =>
      simp only [IpFilter.call, IpFilter.delDeny, FilterRules.call]
      split
      · exact h
      · exact ⟨h.allowAll, h.deny.delete ipPrefix, h.allow⟩

/-- Any sequence of calls. -/
theorem IpFilter.keeps_foldl (calls : List FilterCall) : ∀ {f : IpFilter} {r : FilterRules}, f.Keeps r →
    (calls.foldl IpFilter.call f).Keeps (calls.foldl FilterRules.call r) := by
  induction calls with
  | nil => exact fun h => h
  | cons c calls ih =>
      intro f r h
      exact ih (IpFilter.keeps_call h c)

theorem IpFilter.keeps_run (calls : List FilterCall) : (IpFilter.run calls).Keeps (FilterRules.run calls) :=
  IpFilter.keeps_foldl calls ⟨rfl, represents_empty, represents_empty⟩

/-! ## Addresses -/

/-- The characters of an address. -/
theorem Ipv4.mem_text {ip : Ipv4} {b : Byte} (h : b ∈ ip.text) : isDigit b = true ∨ b = chr '.' := by
  simp only [text, List.mem_append, List.mem_cons] at h
  rcases h with h | rfl | h | rfl | h | rfl | h
  · exact Or.inl (isDigit_of_mem_decimal h)
  · exact Or.inr rfl
  · exact Or.inl (isDigit_of_mem_decimal h)
  · exact Or.inr rfl
  · exact Or.inl (isDigit_of_mem_decimal h)
  · exact Or.inr rfl
  · exact Or.inl (isDigit_of_mem_decimal h)

theorem count_dot_decimal (n : ℕ) : (decimal n).count (chr '.') = 0 := by
  rw [List.count_eq_zero]
  intro h
  have := isDigit_of_mem_decimal h
  revert this
  decide

theorem Ipv4.isFullIp_text (ip : Ipv4) : isFullIp ip.text = true := by
  simp [isFullIp, text, List.count_append, count_dot_decimal]

/-- Both terminators are greater than the characters of an address. -/
theorem Ipv4.lt_at {ip : Ipv4} {b : Byte} (h : b ∈ ip.text) : b < chr '@' := by
  rcases mem_text h with hdigit | rfl
  · simp only [isDigit, Bool.and_eq_true, decide_eq_true_eq] at hdigit
    rw [Fin.lt_def]
    exact lt_of_le_of_lt hdigit.2 (by decide)
  · decide

theorem hitBy_stored_full {rule ip : Bytes} (hfull : isFullIp rule = true) :
    hitBy (stored rule) ip = true ↔ ip = rule := by
  simp only [hitBy, stored, hfull, if_true, List.length_append, List.length_singleton, Nat.add_sub_cancel,
    List.getElem?_concat_length, List.take_left, beq_iff_eq]
  exact eq_comm

theorem hitBy_stored_start {rule ip : Bytes} (hfull : isFullIp rule = false) :
    hitBy (stored rule) ip = true ↔ rule <+: ip ∧ rule.length < ip.length := by
  have hat : chr '@' ≠ chr '=' := by decide
  simp only [hitBy, stored, hfull, Bool.false_eq_true, if_false, List.length_append, List.length_singleton,
    Nat.add_sub_cancel, List.getElem?_concat_length, List.take_left, Option.some.injEq, hat]
  split
  · rename_i hlt
    rw [beq_iff_eq, List.prefix_iff_eq_take]
    exact ⟨fun h => ⟨h.symm, hlt⟩, fun h => h.1.symm⟩
  · rename_i hge
    simp [hge]

/-- The test on the string of a rule tells whether the rule matches. -/
theorem Ipv4.hitBy_stored (ip : Ipv4) (rule : Bytes) :
    hitBy (stored rule) ip.text = true ↔ RuleMatches rule ip.text := by
  rw [RuleMatches]
  cases hfull : isFullIp rule with
  | true => exact hitBy_stored_full hfull
  | false =>
      rw [hitBy_stored_start hfull, if_neg (by decide)]
      refine ⟨fun h => h.1, ?_⟩
      intro hstart
      refine ⟨hstart, lt_of_le_of_ne hstart.length_le ?_⟩
      -- the rule is not the address itself, which has three dots
      intro hlength
      rw [hstart.eq_of_length hlength, ip.isFullIp_text] at hfull
      cases hfull

/-- **A rule that matches stands behind the address.** -/
theorem Ipv4.lt_stored (ip : Ipv4) {rule : Bytes} (h : RuleMatches rule ip.text) :
    ip.text < stored rule := by
  rw [RuleMatches] at h
  cases hfull : isFullIp rule with
  | true =>
      rw [hfull, if_pos rfl] at h
      rw [h, stored]
      nth_rewrite 1 [← List.append_nil rule]
      rw [OrderedMap.append_lt_append_iff]
      exact List.nil_lt_cons _ _
  | false =>
      rw [hfull, if_neg (by decide)] at h
      obtain ⟨rest, hrest⟩ := h
      cases rest with
      | nil =>
          rw [List.append_nil] at hrest
          rw [hrest, ip.isFullIp_text] at hfull
          cases hfull
      | cons b rest =>
          have hlt : b < chr '@' := ip.lt_at (by rw [← hrest]; simp)
          rw [← hrest, stored, hfull, OrderedMap.append_lt_append_iff, if_neg (by decide)]
          exact List.cons_lt_cons_iff.mpr (Or.inl hlt)

/-! ## The probe -/

/-- **The probe finds a rule that matches** unless it is shadowed. -/
theorem checkHit_iff {m : StringSet} {rules : Finset Bytes} (h : Represents m rules) (ip : Ipv4) :
    checkHit m ip.text = true ↔ Hit rules ip.text ∧ ¬ Shadowed rules ip.text := by
  have hprobe : checkHit m ip.text = true ↔
      ∃ found, (m.after ip.text).head? = some (found, ()) ∧ hitBy found ip.text = true := by
    rw [checkHit]
    split
    · rename_i hempty
      rw [OrderedMap.after, List.isEmpty_iff.mp hempty]
      simp
    · cases hhead : (m.after ip.text).head? with
      | none => simp
      | some p =>
          obtain ⟨found, u⟩ := p
          simp
  rw [hprobe]
  constructor
  · rintro ⟨found, hhead, hhit⟩
    obtain ⟨-, hget, hleast⟩ := OrderedMap.head?_after_eq_some hhead
    obtain ⟨rule, hrule, rfl⟩ := (h found).mp hget
    have hmatches := (ip.hitBy_stored rule).mp hhit
    refine ⟨⟨rule, hrule, hmatches⟩, ?_⟩
    rintro ⟨-, other, hother, hbehind, hless⟩
    have hle := hleast (stored other) () hbehind ((h _).mpr ⟨other, hother, rfl⟩)
    exact absurd (hless rule hrule hmatches) (not_lt.mpr hle)
  · rintro ⟨⟨rule, hrule, hmatches⟩, hclear⟩
    have hmem : (stored rule, ()) ∈ m.after ip.text :=
      OrderedMap.mem_after.mpr ⟨ip.lt_stored hmatches, (h _).mpr ⟨rule, hrule, rfl⟩⟩
    cases hhead : (m.after ip.text).head? with
    | none =>
        rw [List.head?_eq_none_iff.mp hhead] at hmem
        cases hmem
    | some p =>
        obtain ⟨found, u⟩ := p
        refine ⟨found, rfl, ?_⟩
        obtain ⟨hbehind, hget, hleast⟩ := OrderedMap.head?_after_eq_some hhead
        obtain ⟨other, hother, rfl⟩ := (h found).mp hget
        rw [ip.hitBy_stored]
        by_contra hnot
        -- the string found would shadow every rule that matches
        refine hclear ⟨⟨rule, hrule, hmatches⟩, other, hother, hbehind, ?_⟩
        intro rule' hrule' hmatches'
        have hle := hleast (stored rule') () (ip.lt_stored hmatches') ((h _).mpr ⟨rule', hrule', rfl⟩)
        refine lt_of_le_of_ne hle ?_
        intro heq
        exact hnot (stored_injective heq ▸ hmatches')

/-- **The filter decides by its rules**, after any calls and for every address, exactly if no shadowed rule
matters: a shadowed rule that denies does no harm where the address is not allowed anyway, and one that
allows where everything is allowed. -/
theorem check_pass_iff (calls : List FilterCall) (ip : Ipv4) :
    (IpFilter.run calls).checkPass ip.text = (FilterRules.run calls).pass ip.text ↔
      (Shadowed (FilterRules.run calls).deny ip.text →
        (FilterRules.run calls).allowAll = false ∧
          (Hit (FilterRules.run calls).allow ip.text → Shadowed (FilterRules.run calls).allow ip.text)) ∧
      (¬ Hit (FilterRules.run calls).deny ip.text → Shadowed (FilterRules.run calls).allow ip.text →
        (FilterRules.run calls).allowAll = true) := by
  have hkeeps := IpFilter.keeps_run calls
  have hdeny := checkHit_iff hkeeps.deny ip
  have hallow := checkHit_iff hkeeps.allow ip
  by_cases hD : Hit (FilterRules.run calls).deny ip.text
  · rw [FilterRules.pass, if_pos hD]
    by_cases hS : Shadowed (FilterRules.run calls).deny ip.text
    · -- the rule that denies is missed, and the allow rules are asked
      have hmiss : ¬ checkHit (IpFilter.run calls).deny ip.text = true := fun h => (hdeny.mp h).2 hS
      have hallowMiss : checkHit (IpFilter.run calls).allow ip.text = false ↔
          (Hit (FilterRules.run calls).allow ip.text → Shadowed (FilterRules.run calls).allow ip.text) := by
        rw [← Bool.not_eq_true, hallow, not_and_not_right]
      simp [IpFilter.checkPass, hmiss, hallowMiss, hkeeps.allowAll, hD, hS, and_comm]
    · have hfound : checkHit (IpFilter.run calls).deny ip.text = true := hdeny.mpr ⟨hD, hS⟩
      simp [IpFilter.checkPass, hfound, hD, hS]
  · have hmiss : ¬ checkHit (IpFilter.run calls).deny ip.text = true := fun h => hD (hdeny.mp h).1
    have hS : ¬ Shadowed (FilterRules.run calls).deny ip.text := fun h => hD h.1
    rw [FilterRules.pass, if_neg hD]
    by_cases hA : Hit (FilterRules.run calls).allow ip.text
    · by_cases hT : Shadowed (FilterRules.run calls).allow ip.text
      · simp [IpFilter.checkPass, hmiss, hallow, hkeeps.allowAll, hD, hS, hA, hT]
      · simp [IpFilter.checkPass, hmiss, hallow, hD, hS, hA, hT]
    · have hT : ¬ Shadowed (FilterRules.run calls).allow ip.text := fun h => hA h.1
      simp [IpFilter.checkPass, hmiss, hallow, hkeeps.allowAll, hD, hS, hA, hT]

/-- **A rule that denies is missed**: `1.2.` denies the address, but the string of `1.2.3.5` stands between
the address and the string of `1.2.`. -/
theorem deny_rule_missed :
    (IpFilter.run [.addDeny (ascii "1.2."), .addDeny (ascii "1.2.3.5")]).checkPass
        (Ipv4.text ⟨1, 2, 3, 4⟩) = true ∧
      (FilterRules.run [.addDeny (ascii "1.2."), .addDeny (ascii "1.2.3.5")]).pass
        (Ipv4.text ⟨1, 2, 3, 4⟩) = false := by
  decide +kernel

end Ssdb
