/-
# The threads of a worker pool

`Queue`, `SelectableQueue` and `WorkerPool` of `ssdb-master/src/util/thread.h`, thread by thread.  The
loop of the server puts a job into the first queue, under its mutex, and signals its condition variable
afterwards.  A thread takes a job from it, or waits on the condition variable, which may also wake it
without a signal.  It puts the result into the second queue and writes a byte into a pipe, both under a
mutex; the loop is told of the byte, reads it, and takes a result under the mutex.

* `Sound`: the bytes in the pipe are the results that nobody was told of, and no wakeup is lost;
* `received_of_idle`: where nothing goes on, no job is left behind;
* `pool_threads`: what that means for every run, and that the threads do nothing but what a pool of
  `Ssdb.NetworkServer` does, whose pools change in no other way (`loop_pools`).

What is done under the mutex of the first queue is one step; the mutex of the second one is a state of its
own, as its bytes can be read while a thread holds it.
-/
import DoudizhuBackend.Ssdb.LoopSafety

namespace Ssdb

/-! ## Threads -/

/-- Where a thread of a pool stands: before the mutex of the jobs, on its condition variable, in `proc`,
before the mutex of the results, and with it: before `items.push`, before `write`, before `unlock`. -/
inductive ThreadPlace (J R : Type) where
  | entering
  | waiting
  | working (job : J)
  | finished (job : J) (result : R)
  | pushing (job : J) (result : R)
  | pushed
  | written

/-- Where the loop stands: it has pushed a job and not signalled yet, or has read a byte and not taken the
result yet. -/
inductive LoopPlace where
  | free | signalling | reading
  deriving DecidableEq

/-- The byte that was read. -/
def LoopPlace.byte : LoopPlace → ℕ
  | .reading => 1
  | _ => 0

/-- The signal that is to come. -/
def LoopPlace.signals : LoopPlace → ℕ
  | .signalling => 1
  | _ => 0

/-- A `WorkerPool`: its two queues, its threads and the pipe, with all that was ever put in and taken out. -/
structure PoolThreads (J R : Type) where
  jobs : List J
  threads : List (ThreadPlace J R)
  results : List (J × R)
  bytes : ℕ
  locked : Bool
  loop : LoopPlace
  given : List J
  taken : List J
  ended : List (J × R)
  received : List (J × R)

/-- A step of the loop (`push` in two steps, `pop` in two steps) or of the thread `k`. -/
inductive ThreadStep (J R : Type) where
  | push (job : J)
  | signal (k : ℕ)
  | wake (k : ℕ)
  | enter (k : ℕ)
  | work (k : ℕ) (result : R)
  | lock (k : ℕ)
  | put (k : ℕ)
  | write (k : ℕ)
  | unlock (k : ℕ)
  | read
  | pop

variable {J R : Type}

namespace ThreadPlace

/-- The thread waits for a signal. -/
def isWaiting : ThreadPlace J R → Bool
  | .waiting => true
  | _ => false

/-- The thread is about to take the lock. -/
def isEntering : ThreadPlace J R → Bool
  | .entering => true
  | _ => false

/-- The result is in the queue, and its byte is not in the pipe yet. -/
def isPushed : ThreadPlace J R → Bool
  | .pushed => true
  | _ => false

/-- The thread has the mutex of the results. -/
def holds : ThreadPlace J R → Bool
  | .pushing _ _ | .pushed | .written => true
  | _ => false

/-- The job that the thread has. -/
def inHand : ThreadPlace J R → List J
  | .working job | .finished job _ | .pushing job _ => [job]
  | _ => []

end ThreadPlace

namespace PoolThreads

/-- `start`. -/
def start (n : ℕ) : PoolThreads J R where
  jobs := []
  threads := List.replicate n .entering
  results := []
  bytes := 0
  locked := false
  loop := .free
  given := []
  taken := []
  ended := []
  received := []

/-- The pool with one thread moved. -/
def place (s : PoolThreads J R) (k : ℕ) (p : ThreadPlace J R) : PoolThreads J R :=
  { s with threads := s.threads.set k p }

/-- A step; one that does not apply changes nothing, and there is no state behind the branch of `pop` that
finds the queue empty. -/
def step (s : PoolThreads J R) : ThreadStep J R → Option (PoolThreads J R)
  | .push job =>
      if s.loop = .free then
        some { s with jobs := s.jobs ++ [job], loop := .signalling, given := s.given ++ [job] }
      else some s
  | .signal k =>
      if s.loop = .signalling then
        match s.threads[k]? with
        | some .waiting => some { s.place k .entering with loop := .free }
        | _ =>
            -- a signal is lost only if nobody waits
            if s.threads.any ThreadPlace.isWaiting then some s else some { s with loop := .free }
      else some s
  | .wake k =>
      match s.threads[k]? with
      | some .waiting => some (s.place k .entering)
      | _ => some s
  | .enter k =>
      match s.threads[k]?, s.jobs with
      -- `pthread_cond_wait` gives the mutex back
      | some .entering, [] => some (s.place k .waiting)
      | some .entering, job :: rest =>
          some { s.place k (.working job) with jobs := rest, taken := s.taken ++ [job] }
      | _, _ => some s
  | .work k result =>
      match s.threads[k]? with
      | some (.working job) => some (s.place k (.finished job result))
      | _ => some s
  | .lock k =>
      match s.threads[k]?, s.locked with
      | some (.finished job result), false => some { s.place k (.pushing job result) with locked := true }
      | _, _ => some s
  | .put k =>
      match s.threads[k]? with
      | some (.pushing job result) =>
          some { s.place k .pushed with
            results := s.results ++ [(job, result)], ended := s.ended ++ [(job, result)] }
      | _ => some s
  | .write k =>
      match s.threads[k]? with
      | some .pushed => some { s.place k .written with bytes := s.bytes + 1 }
      | _ => some s
  | .unlock k =>
      match s.threads[k]? with
      | some .written => some { s.place k .entering with locked := false }
      | _ => some s
  | .read =>
      if s.loop = .free ∧ 0 < s.bytes then some { s with loop := .reading, bytes := s.bytes - 1 } else some s
  | .pop =>
      if s.loop = .reading ∧ s.locked = false then
        match s.results with
        -- the branch that prints `error!`
        | [] => none
        | r :: rest => some { s with loop := .free, results := rest, received := s.received ++ [r] }
      else some s

variable {s s' : PoolThreads J R} {k : ℕ} {p q : ThreadPlace J R}

/-! ## What a step does -/

/-- All that a step can do. -/
inductive Does (s : PoolThreads J R) : ThreadStep J R → PoolThreads J R → Prop
  | same (l : ThreadStep J R) : Does s l s
  | push (job : J) (hloop : s.loop = .free) :
      Does s (.push job) { s with jobs := s.jobs ++ [job], loop := .signalling, given := s.given ++ [job] }
  | signals {k : ℕ} (hloop : s.loop = .signalling) (hk : s.threads[k]? = some .waiting) :
      Does s (.signal k) { s.place k .entering with loop := .free }
  | loses {k : ℕ} (hloop : s.loop = .signalling) (hnobody : ∀ t ∈ s.threads, t.isWaiting = false) :
      Does s (.signal k) { s with loop := .free }
  | wakes {k : ℕ} (hk : s.threads[k]? = some .waiting) : Does s (.wake k) (s.place k .entering)
  | waits {k : ℕ} (hk : s.threads[k]? = some .entering) (hjobs : s.jobs = []) :
      Does s (.enter k) (s.place k .waiting)
  | takes {k : ℕ} {job : J} {rest : List J} (hk : s.threads[k]? = some .entering) (hjobs : s.jobs = job :: rest) :
      Does s (.enter k) { s.place k (.working job) with jobs := rest, taken := s.taken ++ [job] }
  | works {k : ℕ} {job : J} (hk : s.threads[k]? = some (.working job)) (result : R) :
      Does s (.work k result) (s.place k (.finished job result))
  | locks {k : ℕ} {job : J} {result : R} (hk : s.threads[k]? = some (.finished job result))
      (hlocked : s.locked = false) :
      Does s (.lock k) { s.place k (.pushing job result) with locked := true }
  | puts {k : ℕ} {job : J} {result : R} (hk : s.threads[k]? = some (.pushing job result)) :
      Does s (.put k) { s.place k .pushed with
        results := s.results ++ [(job, result)], ended := s.ended ++ [(job, result)] }
  | writes {k : ℕ} (hk : s.threads[k]? = some .pushed) :
      Does s (.write k) { s.place k .written with bytes := s.bytes + 1 }
  | unlocks {k : ℕ} (hk : s.threads[k]? = some .written) :
      Does s (.unlock k) { s.place k .entering with locked := false }
  | reads (hloop : s.loop = .free) (hbytes : 0 < s.bytes) :
      Does s .read { s with loop := .reading, bytes := s.bytes - 1 }
  | pops {r : J × R} {rest : List (J × R)} (hloop : s.loop = .reading) (hresults : s.results = r :: rest) :
      Does s .pop { s with loop := .free, results := rest, received := s.received ++ [r] }

theorem step_does {l : ThreadStep J R} (hstep : s.step l = some s') : s.Does l s' := by
  cases l with
  | push job =>
      -- each step is taken or leaves the pool as it is
      simp only [PoolThreads.step] at hstep
      split at hstep <;> obtain rfl := Option.some.inj hstep
      · rename_i hloop
        exact .push job hloop
      · exact .same _
  | signal k =>
      simp only [PoolThreads.step] at hstep
      split at hstep
      · rename_i hloop
        split at hstep
        · rename_i hk
          obtain rfl := Option.some.inj hstep
          exact .signals hloop hk
        · split at hstep <;> obtain rfl := Option.some.inj hstep
          · exact .same _
          · rename_i hnobody
            -- a signal that nobody waits for is lost
            refine .loses hloop fun t ht => ?_
            exact Bool.eq_false_iff.mpr fun hwaiting => hnobody (List.any_eq_true.mpr ⟨t, ht, hwaiting⟩)
      · obtain rfl := Option.some.inj hstep
        exact .same _
  | wake k =>
      simp only [PoolThreads.step] at hstep
      split at hstep <;> obtain rfl := Option.some.inj hstep
      · rename_i hk
        exact .wakes hk
      · exact .same _
  | enter k =>
      simp only [PoolThreads.step] at hstep
      split at hstep <;> obtain rfl := Option.some.inj hstep
      · rename_i hk hjobs
        exact .waits hk hjobs
      · rename_i hk hjobs
        exact .takes hk hjobs
      · exact .same _
  | work k result =>
      simp only [PoolThreads.step] at hstep
      split at hstep <;> obtain rfl := Option.some.inj hstep
      · rename_i hk
        exact .works hk result
      · exact .same _
  | lock k =>
      simp only [PoolThreads.step] at hstep
      split at hstep <;> obtain rfl := Option.some.inj hstep
      · rename_i hk hlocked
        exact .locks hk hlocked
      · exact .same _
  | put k =>
      simp only [PoolThreads.step] at hstep
      split at hstep <;> obtain rfl := Option.some.inj hstep
      · rename_i hk
        exact .puts hk
      · exact .same _
  | write k =>
      simp only [PoolThreads.step] at hstep
      split at hstep <;> obtain rfl := Option.some.inj hstep
      · rename_i hk
        exact .writes hk
      · exact .same _
  | unlock k =>
      simp only [PoolThreads.step] at hstep
      split at hstep <;> obtain rfl := Option.some.inj hstep
      · rename_i hk
        exact .unlocks hk
      · exact .same _
  | read =>
      simp only [PoolThreads.step] at hstep
      split at hstep <;> obtain rfl := Option.some.inj hstep
      · rename_i hcan
        exact .reads hcan.1 hcan.2
      · exact .same _
  | pop =>
      simp only [PoolThreads.step] at hstep
      split at hstep
      · rename_i hcan
        split at hstep
        · cases hstep
        · rename_i hresults
          obtain rfl := Option.some.inj hstep
          exact .pops hcan.1 hresults
      · obtain rfl := Option.some.inj hstep
        exact .same _

/-! ## The invariant -/

/-- How many threads are where. -/
def count (s : PoolThreads J R) (f : ThreadPlace J R → Bool) : ℕ := s.threads.countP f

/-- One thread goes from one place to another. -/
theorem count_place {s : PoolThreads J R} {k : ℕ} {p : ThreadPlace J R} (hk : s.threads[k]? = some p)
    (q : ThreadPlace J R) (f : ThreadPlace J R → Bool) :
    (s.place k q).count f + (f p).toNat = s.count f + (f q).toNat := by
  simp only [count, place]
  generalize s.threads = threads at hk
  induction threads generalizing k with
  | nil => simp at hk
  | cons t threads ih =>
      cases k with
      | zero =>
          obtain rfl : t = p := by simpa using hk
          simp only [List.set_cons_zero, List.countP_cons]
          cases f t <;> cases f q <;> simp
      | succ k =>
          have htail := ih (k := k) (by simpa using hk)
          simp only [List.set_cons_succ, List.countP_cons]
          omega

/-- The jobs that the threads have. -/
def inHand (s : PoolThreads J R) : List J := s.threads.flatMap ThreadPlace.inHand

/-- The invariant of the two queues. -/
structure Sound (s : PoolThreads J R) : Prop where
  /-- a byte for each result, but for those that are being announced or taken -/
  tokens : s.results.length = s.bytes + s.loop.byte + s.count ThreadPlace.isPushed
  lock : s.count ThreadPlace.holds = s.locked.toNat
  /-- while a thread waits, each job has a thread that is on its way, or a signal -/
  wake : 0 < s.count ThreadPlace.isWaiting →
    s.jobs.length ≤ s.count ThreadPlace.isEntering + s.loop.signals
  given : s.given = s.taken ++ s.jobs
  ended : s.ended = s.received ++ s.results
  once : s.taken.Perm (s.ended.map Prod.fst ++ s.inHand)

/-- One thread goes from one place to another, and its job with it. -/
theorem inHand_place (hk : s.threads[k]? = some p) (q : ThreadPlace J R) :
    (p.inHand ++ (s.place k q).inHand).Perm (q.inHand ++ s.inHand) :=
  perm_flatMap_set ThreadPlace.inHand q hk

/-- A thread that goes on with its job, or without one. -/
theorem Sound.place (h : s.Sound) (hk : s.threads[k]? = some p) (hhand : q.inHand = p.inHand)
    (hpushed : q.isPushed = p.isPushed) (hholds : q.holds = p.holds)
    (hwake : 0 < (s.place k q).count ThreadPlace.isWaiting → s.jobs.length ≤
      (s.place k q).count ThreadPlace.isEntering + s.loop.signals) :
    (s.place k q).Sound where
  tokens := by
    have hcount := count_place hk q ThreadPlace.isPushed
    rw [hpushed] at hcount
    have htokens := h.tokens
    simp only [PoolThreads.place] at hcount ⊢
    omega
  lock := by
    have hcount := count_place hk q ThreadPlace.holds
    rw [hholds] at hcount
    have hlock := h.lock
    simp only [PoolThreads.place] at hcount ⊢
    omega
  wake := hwake
  given := h.given
  ended := h.ended
  once := by
    have hperm := inHand_place hk q
    rw [hhand] at hperm
    exact h.once.trans (((List.perm_append_left_iff _).mp hperm).symm.append_left _)

/-- A thread that neither wakes nor comes to wait leaves no job alone. -/
theorem Sound.wake_place (h : s.Sound) (hk : s.threads[k]? = some p) (hwaiting : q.isWaiting = p.isWaiting)
    (hentering : p.isEntering = false) (hpos : 0 < (s.place k q).count ThreadPlace.isWaiting) :
    s.jobs.length ≤ (s.place k q).count ThreadPlace.isEntering + s.loop.signals := by
  have hwaits := count_place hk q ThreadPlace.isWaiting
  have henters := count_place hk q ThreadPlace.isEntering
  rw [hwaiting] at hwaits
  rw [hentering, Bool.toNat_false] at henters
  have hwake := h.wake (by omega)
  omega

/-- A thread is woken. -/
theorem Sound.woken (h : s.Sound) (hk : s.threads[k]? = some .waiting) (loop : LoopPlace)
    (hbyte : loop.byte = s.loop.byte) (hsignals : s.loop.signals ≤ loop.signals + 1) :
    Sound { s.place k .entering with loop := loop } := by
  have hwaiting := count_place hk .entering ThreadPlace.isWaiting
  have hentering := count_place hk .entering ThreadPlace.isEntering
  simp only [ThreadPlace.isWaiting, ThreadPlace.isEntering, Bool.toNat_true, Bool.toNat_false] at hwaiting hentering
  have hplace : (s.place k .entering).Sound := by
    refine h.place hk rfl rfl rfl fun _ => ?_
    have hwake := h.wake (by omega)
    omega
  refine ⟨?_, hplace.lock, fun _ => ?_, h.given, h.ended, hplace.once⟩
  · have htokens := hplace.tokens
    simp only [PoolThreads.place] at htokens ⊢
    rw [hbyte]
    exact htokens
  · have hwake := h.wake (by omega)
    simp only [count, PoolThreads.place] at hentering hwake ⊢
    omega

/-- A thread takes a job. -/
theorem Sound.takes (h : s.Sound) {job : J} {rest : List J} (hk : s.threads[k]? = some .entering)
    (hjobs : s.jobs = job :: rest) :
    Sound { s.place k (.working job) with jobs := rest, taken := s.taken ++ [job] } := by
  have hpushed := count_place hk (.working job) ThreadPlace.isPushed
  have hholds := count_place hk (.working job) ThreadPlace.holds
  have hwaiting := count_place hk (.working job) ThreadPlace.isWaiting
  have hentering := count_place hk (.working job) ThreadPlace.isEntering
  simp only [ThreadPlace.isPushed, ThreadPlace.holds, ThreadPlace.isWaiting, ThreadPlace.isEntering,
    Bool.toNat_true, Bool.toNat_false, Nat.add_zero] at hpushed hholds hwaiting hentering
  refine ⟨?_, hholds.trans h.lock, fun hpos => ?_, ?_, h.ended, ?_⟩
  · have htokens := h.tokens
    rw [← hpushed] at htokens
    exact htokens
  · -- one job and one thread less
    have hwake := h.wake (by rw [← hwaiting]; exact hpos)
    rw [hjobs, List.length_cons] at hwake
    simp only [count, PoolThreads.place] at hentering hwake ⊢
    omega
  · show s.given = (s.taken ++ [job]) ++ rest
    rw [h.given, hjobs, List.append_assoc, List.singleton_append]
  · have hperm : (s.place k (.working job)).inHand.Perm (job :: s.inHand) := inHand_place hk (.working job)
    have hlast : (s.taken ++ [job]).Perm (job :: s.taken) := List.perm_append_singleton ..
    exact hlast.trans ((h.once.cons job).trans (List.perm_middle.symm.trans (hperm.symm.append_left _)))

/-- A thread gets the mutex of the results. -/
theorem Sound.locks (h : s.Sound) {job : J} {result : R} (hk : s.threads[k]? = some (.finished job result))
    (hlocked : s.locked = false) : Sound { s.place k (.pushing job result) with locked := true } := by
  have hpushed := count_place hk (.pushing job result) ThreadPlace.isPushed
  have hholds := count_place hk (.pushing job result) ThreadPlace.holds
  simp only [ThreadPlace.isPushed, ThreadPlace.holds, Bool.toNat_true, Bool.toNat_false, Nat.add_zero]
    at hpushed hholds
  refine ⟨?_, ?_, h.wake_place hk rfl rfl, h.given, h.ended, ?_⟩
  · have htokens := h.tokens
    rw [← hpushed] at htokens
    exact htokens
  · have hlock := h.lock
    rw [hlocked, Bool.toNat_false] at hlock
    rw [hlock] at hholds
    exact hholds
  · have hperm := inHand_place hk (.pushing job result)
    exact h.once.trans (((List.perm_append_left_iff [job]).mp hperm).symm.append_left _)

/-- A result comes into the queue, and is announced next. -/
theorem Sound.puts (h : s.Sound) {job : J} {result : R} (hk : s.threads[k]? = some (.pushing job result)) :
    Sound { s.place k .pushed with
      results := s.results ++ [(job, result)], ended := s.ended ++ [(job, result)] } := by
  have hpushed := count_place hk .pushed ThreadPlace.isPushed
  have hholds := count_place hk .pushed ThreadPlace.holds
  simp only [ThreadPlace.isPushed, ThreadPlace.holds, Bool.toNat_true, Bool.toNat_false, Nat.add_zero]
    at hpushed hholds
  refine ⟨?_, ?_, h.wake_place hk rfl rfl, h.given, ?_, ?_⟩
  · have htokens := h.tokens
    simp only [count, PoolThreads.place, List.length_append, List.length_singleton] at hpushed htokens ⊢
    omega
  · have hlock := h.lock
    simp only [count, PoolThreads.place] at hholds hlock ⊢
    omega
  · show s.ended ++ [(job, result)] = s.received ++ (s.results ++ [(job, result)])
    rw [h.ended, List.append_assoc]
  · have hperm : (job :: (s.place k .pushed).inHand).Perm s.inHand := inHand_place hk .pushed
    refine h.once.trans ((hperm.symm.append_left _).trans ?_)
    simp only [List.map_append, List.map_singleton, List.append_assoc, List.singleton_append]
    exact .refl _

/-- The byte of the result is written. -/
theorem Sound.writes (h : s.Sound) (hk : s.threads[k]? = some .pushed) :
    Sound { s.place k .written with bytes := s.bytes + 1 } := by
  have hpushed := count_place hk .written ThreadPlace.isPushed
  have hholds := count_place hk .written ThreadPlace.holds
  simp only [ThreadPlace.isPushed, ThreadPlace.holds, Bool.toNat_true, Bool.toNat_false, Nat.add_zero]
    at hpushed hholds
  refine ⟨?_, ?_, h.wake_place hk rfl rfl, h.given, h.ended, ?_⟩
  · have htokens := h.tokens
    simp only [count, PoolThreads.place] at hpushed htokens ⊢
    omega
  · have hlock := h.lock
    simp only [count, PoolThreads.place] at hholds hlock ⊢
    omega
  · exact h.once.trans ((inHand_place hk .written).symm.append_left _)

/-- The thread that has the mutex leaves it. -/
theorem Sound.unlocks (h : s.Sound) (hk : s.threads[k]? = some .written) :
    Sound { s.place k .entering with locked := false } := by
  have hpushed := count_place hk .entering ThreadPlace.isPushed
  have hholds := count_place hk .entering ThreadPlace.holds
  simp only [ThreadPlace.isPushed, ThreadPlace.holds, Bool.toNat_true, Bool.toNat_false, Nat.add_zero]
    at hpushed hholds
  refine ⟨?_, ?_, h.wake_place hk rfl rfl, h.given, h.ended, ?_⟩
  · have htokens := h.tokens
    rw [← hpushed] at htokens
    exact htokens
  · -- nobody else has it
    have hlock := h.lock
    have hone : s.locked.toNat ≤ 1 := Bool.toNat_le _
    simp only [count, PoolThreads.place, Bool.toNat_false] at hholds hlock ⊢
    omega
  · exact h.once.trans ((inHand_place hk .entering).symm.append_left _)

/-- **The step lemma.** -/
theorem Sound.does (h : s.Sound) {l : ThreadStep J R} (hstep : s.Does l s') : s'.Sound := by
  have htokens := h.tokens
  have hwake := h.wake
  cases hstep with
  | same => exact h
  | push job hloop =>
      rw [hloop] at htokens hwake
      refine ⟨htokens, h.lock, fun hpos => ?_, ?_, h.ended, h.once⟩
      · have hle := hwake hpos
        simp only [List.length_append, List.length_singleton]
        exact Nat.succ_le_succ hle
      · show s.given ++ [job] = s.taken ++ (s.jobs ++ [job])
        rw [h.given, List.append_assoc]
  | signals hloop hk => exact h.woken hk .free (by rw [hloop]; rfl) (by rw [hloop]; exact le_rfl)
  | loses hloop hnobody =>
      have hnone : s.count ThreadPlace.isWaiting = 0 := by
        rw [count, List.countP_eq_zero]
        intro t ht
        rw [hnobody t ht]
        exact Bool.false_ne_true
      rw [hloop] at htokens
      exact ⟨htokens, h.lock, fun hpos => absurd hnone hpos.ne', h.given, h.ended, h.once⟩
  | wakes hk => exact h.woken hk s.loop rfl (Nat.le_succ _)
  | waits hk hjobs =>
      refine h.place hk rfl rfl rfl fun _ => ?_
      rw [hjobs]
      exact Nat.zero_le _
  | takes hk hjobs => exact h.takes hk hjobs
  | works hk result => exact h.place hk rfl rfl rfl (h.wake_place hk rfl rfl)
  | locks hk hlocked => exact h.locks hk hlocked
  | puts hk => exact h.puts hk
  | writes hk => exact h.writes hk
  | unlocks hk => exact h.unlocks hk
  | reads hloop hbytes =>
      rw [hloop] at htokens hwake
      refine ⟨?_, h.lock, hwake, h.given, h.ended, h.once⟩
      simp only [LoopPlace.byte, count] at htokens ⊢
      omega
  | @pops r rest hloop hresults =>
      rw [hloop] at htokens hwake
      refine ⟨?_, h.lock, hwake, h.given, ?_, h.once⟩
      · simp only [hresults, List.length_cons, LoopPlace.byte, count] at htokens ⊢
        omega
      · show s.ended = (s.received ++ [r]) ++ rest
        rw [h.ended, hresults, List.append_assoc, List.singleton_append]

/-- The loop finds a result where it was told of one. -/
theorem Sound.exists_step (h : s.Sound) (l : ThreadStep J R) : ∃ s', s.step l = some s' := by
  cases l with
  | pop =>
      simp only [PoolThreads.step]
      split
      · rename_i hcan
        split
        · rename_i hresults
          have htokens := h.tokens
          simp only [hresults, hcan.1, List.length_nil, LoopPlace.byte] at htokens
          omega
        · exact ⟨_, rfl⟩
      · exact ⟨s, rfl⟩
  | signal k =>
      simp only [PoolThreads.step]
      split
      · split
        · exact ⟨_, rfl⟩
        · split <;> exact ⟨_, rfl⟩
      · exact ⟨s, rfl⟩
  | _ =>
      simp only [PoolThreads.step]
      split <;> exact ⟨_, rfl⟩

/-! ## Progress -/

theorem getElem?_place (hk : s.threads[k]? = some p) : (s.place k q).threads[k]? = some q :=
  List.getElem?_set_self (List.getElem?_eq_some_iff.mp hk).1

/-- A step that moves a thread is a change. -/
theorem place_ne (hk : s.threads[k]? = some p) (hpq : q ≠ p) {s' : PoolThreads J R}
    (hs' : s'.threads = (s.place k q).threads) : some s' ≠ some s := by
  intro heq
  have hq : s.threads[k]? = some q := by
    rw [← Option.some.inj heq, hs']
    exact getElem?_place hk
  exact hpq (Option.some.inj (hq.symm.trans hk))

/-- Nothing goes on but that new jobs come, or that a thread is woken without a signal. -/
def Idle (s : PoolThreads J R) : Prop :=
  ∀ l, (∀ job, l ≠ .push job) → (∀ k, l ≠ .wake k) → s.step l = some s

/-- Where nothing goes on, every thread waits.  A thread that has the mutex goes on by itself, so that
nobody has it, and then each of the others could go on. -/
theorem Sound.waiting_of_idle (h : s.Sound) (hidle : s.Idle) (result : J → R) (hk : s.threads[k]? = some p) :
    p = .waiting := by
  -- a thread that holds the lock can always take its next step, so nobody holds it
  have hown : ∀ (j : ℕ) (t : ThreadPlace J R), s.threads[j]? = some t → t.holds = false := by
    intro j t hj
    cases t with
    | pushing job r =>
        have hput := hidle (.put j) (by simp) (by simp)
        simp only [PoolThreads.step, hj] at hput
        exact absurd hput (place_ne (q := .pushed) hj (by simp) rfl)
    | pushed =>
        have hwrite := hidle (.write j) (by simp) (by simp)
        simp only [PoolThreads.step, hj] at hwrite
        exact absurd hwrite (place_ne (q := .written) hj (by simp) rfl)
    | written =>
        have hunlock := hidle (.unlock j) (by simp) (by simp)
        simp only [PoolThreads.step, hj] at hunlock
        exact absurd hunlock (place_ne (q := .entering) hj (by simp) rfl)
    | _ => rfl
  have hlocked : s.locked = false := by
    have hnone : s.count ThreadPlace.holds = 0 := by
      rw [count, List.countP_eq_zero]
      intro t ht
      obtain ⟨j, hj⟩ := List.mem_iff_getElem?.mp ht
      simp [hown j t hj]
    have hlock := h.lock
    rw [hnone] at hlock
    cases hs : s.locked with
    | false => rfl
    | true => simp [hs] at hlock
  cases p with
  | entering =>
      have henter := hidle (.enter k) (by simp) (by simp)
      simp only [PoolThreads.step, hk] at henter
      cases hjobs : s.jobs with
      | nil =>
          simp only [hjobs] at henter
          exact absurd henter (place_ne (q := .waiting) hk (by simp) rfl)
      | cons job rest =>
          simp only [hjobs] at henter
          exact absurd henter (place_ne (q := .working job) hk (by simp) rfl)
  | waiting => rfl
  | working job =>
      have hwork := hidle (.work k (result job)) (by simp) (by simp)
      simp only [PoolThreads.step, hk] at hwork
      exact absurd hwork (place_ne (q := .finished job (result job)) hk (by simp) rfl)
  | finished job r =>
      have htake := hidle (.lock k) (by simp) (by simp)
      simp only [PoolThreads.step, hk, hlocked] at htake
      exact absurd htake (place_ne (q := .pushing job r) hk (by simp) rfl)
  | pushing job r => cases hown k _ hk
  | pushed => cases hown k _ hk
  | written => cases hown k _ hk

/-- **Nothing is left behind**: where nothing goes on, every job was done and its result was taken. -/
theorem Sound.received_of_idle (h : s.Sound) (hidle : s.Idle) (result : J → R) (hsome : s.threads ≠ []) :
    s.given.Perm (s.received.map Prod.fst) := by
  have hwaiting : ∀ t ∈ s.threads, t = .waiting := by
    intro t ht
    obtain ⟨j, hj⟩ := List.mem_iff_getElem?.mp ht
    exact h.waiting_of_idle hidle result hj
  have hzero : ∀ f : ThreadPlace J R → Bool, f .waiting = false → s.count f = 0 := by
    intro f hf
    rw [count, List.countP_eq_zero]
    intro t ht
    simp [hwaiting t ht, hf]
  obtain ⟨t, ht⟩ := List.exists_mem_of_ne_nil _ hsome
  obtain ⟨j, hj⟩ := List.mem_iff_getElem?.mp ht
  rw [hwaiting t ht] at hj
  have hlocked : s.locked = false := by
    have hlock := h.lock
    rw [hzero _ rfl] at hlock
    cases hs : s.locked with
    | false => rfl
    | true => simp [hs] at hlock
  have hloop : s.loop = .free := by
    cases hs : s.loop with
    | free => rfl
    | signalling =>
        -- the signal would wake the thread
        have hsignal := hidle (.signal j) (by simp) (by simp)
        simp only [PoolThreads.step, hs, hj, if_true] at hsignal
        exact absurd hsignal (place_ne (q := .entering) hj (by simp) rfl)
    | reading =>
        -- nobody has the mutex, so that the loop could take the result
        have hpop := hidle .pop (by simp) (by simp)
        simp only [PoolThreads.step, hs, hlocked, and_self, if_true] at hpop
        cases hresults : s.results with
        | nil => simp [hresults] at hpop
        | cons r rest =>
            simp only [hresults, Option.some.injEq] at hpop
            have hfree := congrArg PoolThreads.loop hpop
            rw [hs] at hfree
            cases hfree
  have hbytes : s.bytes = 0 := by
    by_contra hne
    have hread := hidle .read (by simp) (by simp)
    simp only [PoolThreads.step, hloop, Nat.pos_of_ne_zero hne, and_self, if_true, Option.some.injEq] at hread
    have hreading := congrArg PoolThreads.loop hread
    rw [hloop] at hreading
    cases hreading
  have hjobs : s.jobs = [] := by
    have hwake := h.wake (List.countP_pos_iff.mpr ⟨t, ht, by rw [hwaiting t ht]; rfl⟩)
    rw [hzero _ rfl, hloop] at hwake
    exact List.eq_nil_of_length_eq_zero (Nat.le_zero.mp hwake)
  have hresults : s.results = [] := by
    have htokens := h.tokens
    rw [hbytes, hloop, hzero _ rfl] at htokens
    exact List.eq_nil_of_length_eq_zero htokens
  have hhand : s.inHand = [] := by
    rw [inHand, List.flatMap_eq_nil_iff]
    intro t ht
    rw [hwaiting t ht]
    rfl
  have honce := h.once
  rw [h.ended, hresults, hhand, List.append_nil, List.append_nil] at honce
  rw [h.given, hjobs, List.append_nil]
  exact honce

/-! ## An end -/

/-- What a thread has left to do with its job, as a number that falls. -/
def weight : ThreadPlace J R → ℕ
  | .entering => 1
  | .waiting => 0
  | .working _ => 8
  | .finished _ _ => 7
  | .pushing _ _ => 6
  | .pushed => 5
  | .written => 2

/-- What is left to do, if no job comes. -/
def left (s : PoolThreads J R) : ℕ :=
  8 * s.jobs.length + (s.threads.map weight).sum + 2 * s.bytes + 2 * s.loop.signals + s.loop.byte

theorem weight_place (hk : s.threads[k]? = some p) (q : ThreadPlace J R) :
    ((s.place k q).threads.map weight).sum + weight p = (s.threads.map weight).sum + weight q := by
  simp only [place]
  generalize s.threads = threads at hk
  induction threads generalizing k with
  | nil => simp at hk
  | cons t threads ih =>
      cases k with
      | zero =>
          obtain rfl : t = p := by simpa using hk
          simp only [List.set_cons_zero, List.map_cons, List.sum_cons]
          omega
      | succ k =>
          have htail := ih (k := k) (by simpa using hk)
          simp only [List.set_cons_succ, List.map_cons, List.sum_cons]
          omega

/-- A step that neither brings a job nor wakes a thread without a signal leaves all as it is, or less to do. -/
theorem left_step {l : ThreadStep J R} (hpush : ∀ job, l ≠ .push job) (hwake : ∀ k, l ≠ .wake k)
    (hstep : s.Does l s') : s' = s ∨ s'.left < s.left := by
  cases hstep with
  | same => exact Or.inl rfl
  | push job => exact absurd rfl (hpush job)
  | wakes => exact absurd rfl (hwake _)
  | signals hloop hk =>
      right
      -- the place of one thread changes, and with it the weight
      have hsum := weight_place hk .entering
      simp only [left, hloop, LoopPlace.signals, LoopPlace.byte, weight, place] at hsum ⊢
      omega
  | loses hloop =>
      right
      simp only [left, hloop, LoopPlace.signals, LoopPlace.byte]
      omega
  | waits hk =>
      right
      have hsum := weight_place hk .waiting
      simp only [left, weight, place] at hsum ⊢
      omega
  | @takes k job rest hk hjobs =>
      right
      have hsum := weight_place hk (.working job)
      simp only [left, weight, place, hjobs, List.length_cons] at hsum ⊢
      omega
  | @works k job hk result =>
      right
      have hsum := weight_place hk (.finished job result)
      simp only [left, weight, place] at hsum ⊢
      omega
  | @locks k job result hk =>
      right
      have hsum := weight_place hk (.pushing job result)
      simp only [left, weight, place] at hsum ⊢
      omega
  | puts hk =>
      right
      have hsum := weight_place hk .pushed
      simp only [left, weight, place] at hsum ⊢
      omega
  | writes hk =>
      right
      have hsum := weight_place hk .written
      simp only [left, weight, place] at hsum ⊢
      omega
  | unlocks hk =>
      right
      have hsum := weight_place hk .entering
      simp only [left, weight, place] at hsum ⊢
      omega
  | reads hloop hbytes =>
      right
      simp only [left, hloop, LoopPlace.signals, LoopPlace.byte]
      omega
  | pops hloop =>
      right
      simp only [left, hloop, LoopPlace.signals, LoopPlace.byte]
      omega

/-! ## One thread -/

/-- With one thread, the jobs end in the order in which they were taken. -/
def InOrder (s : PoolThreads J R) : Prop :=
  ∃ t, s.threads = [t] ∧ s.taken = s.ended.map Prod.fst ++ t.inHand

theorem place_one {t : ThreadPlace J R} (hone : s.threads = [t]) (hk : s.threads[k]? = some p)
    (q : ThreadPlace J R) : t = p ∧ (s.place k q).threads = [q] := by
  obtain ⟨hlt, hget⟩ := List.getElem?_eq_some_iff.mp hk
  have hzero : k = 0 := by
    rw [hone, List.length_singleton] at hlt
    omega
  subst hzero
  simp only [hone, List.getElem_cons_zero] at hget
  exact ⟨hget, by simp [PoolThreads.place, hone]⟩

theorem InOrder.place (h : s.InOrder) (hk : s.threads[k]? = some p) (hhand : q.inHand = p.inHand) :
    (s.place k q).InOrder := by
  obtain ⟨t, hone, htaken⟩ := h
  obtain ⟨rfl, hplace⟩ := place_one hone hk q
  exact ⟨q, hplace, by rw [hhand]; exact htaken⟩

theorem InOrder.step (h : s.InOrder) {l : ThreadStep J R} (hstep : s.Does l s') : s'.InOrder := by
  cases hstep with
  | same | push | loses | reads | pops => exact h
  | signals _ hk | wakes hk => exact h.place (q := .entering) hk rfl
  | waits hk => exact h.place hk rfl
  | works hk => exact h.place hk rfl
  | @locks k job result hk => exact h.place (q := .pushing job result) hk rfl
  | writes hk => exact h.place (q := .written) hk rfl
  | unlocks hk => exact h.place (q := .entering) hk rfl
  | @takes k job rest hk =>
      obtain ⟨t, hone, htaken⟩ := h
      obtain ⟨rfl, hplace⟩ := place_one hone hk (.working job)
      exact ⟨_, hplace, congrArg (· ++ [job]) (htaken.trans (List.append_nil _))⟩
  | @puts k job result hk =>
      obtain ⟨t, hone, htaken⟩ := h
      obtain ⟨rfl, hplace⟩ := place_one hone hk .pushed
      refine ⟨_, hplace, ?_⟩
      show s.taken = (s.ended ++ [(job, result)]).map Prod.fst ++ []
      rw [List.append_nil, List.map_append]
      exact htaken

end PoolThreads

/-! ## The pool of the loop -/

/-- How a pool changes, for the loop and for its threads. -/
inductive PoolMove {σ : Type} (p : Pool σ) : Pool σ → Prop
  | push (job : Job σ) : PoolMove p { p with jobs := p.jobs ++ [job] }
  | take {k : ℕ} {job : Job σ} {rest : List (Job σ)} (hk : p.workers[k]? = some .idle)
      (hjobs : p.jobs = job :: rest) :
      PoolMove p { p with jobs := rest, workers := p.workers.set k (.taken job) }
  | run {k : ℕ} {job : Job σ} (hk : p.workers[k]? = some (.taken job)) (result : Job σ) :
      PoolMove p { p with workers := p.workers.set k (.done result) }
  | finish {k : ℕ} {job : Job σ} (hk : p.workers[k]? = some (.done job)) :
      PoolMove p { p with results := p.results ++ [job], workers := p.workers.set k .idle }
  | pop {job : Job σ} {rest : List (Job σ)} (hresults : p.results = job :: rest) :
      PoolMove p { p with results := rest }

section Refinement

variable {σ : Type}

/-- What the loop can know of a thread. -/
def ThreadPlace.worker : ThreadPlace (Job σ) (Job σ) → Worker σ
  | .working job => .taken job
  | .finished _ result | .pushing _ result => .done result
  | _ => .idle

/-- What the loop can know of the pool. -/
def PoolThreads.pool (s : PoolThreads (Job σ) (Job σ)) : Pool σ :=
  ⟨s.jobs, s.threads.map ThreadPlace.worker, s.results.map Prod.snd⟩

variable {s s' : PoolThreads (Job σ) (Job σ)}

theorem PoolThreads.workers_place (s : PoolThreads (Job σ) (Job σ)) (k : ℕ) (q : ThreadPlace (Job σ) (Job σ)) :
    (s.threads.set k q).map ThreadPlace.worker = s.pool.workers.set k q.worker := List.map_set ..

theorem PoolThreads.worker_getElem? {k : ℕ} {p : ThreadPlace (Job σ) (Job σ)} (hk : s.threads[k]? = some p) :
    s.pool.workers[k]? = some p.worker := by
  rw [PoolThreads.pool, List.getElem?_map, hk]
  rfl

/-- A thread goes on, and the loop does not see it. -/
theorem PoolThreads.pool_place {k : ℕ} {p q : ThreadPlace (Job σ) (Job σ)} (hk : s.threads[k]? = some p)
    (hsame : q.worker = p.worker) : (s.place k q).pool = s.pool := by
  have hset : (s.threads.set k q).map ThreadPlace.worker = s.pool.workers := by
    obtain ⟨hlt, hget⟩ := List.getElem?_eq_some_iff.mp (worker_getElem? hk)
    rw [s.workers_place, hsame, ← hget]
    exact List.set_getElem_self hlt
  exact congrArg (Pool.mk s.jobs · (s.results.map Prod.snd)) hset

/-- What a step of the threads is for the pool: nothing, or a step of it. -/
theorem PoolThreads.Does.moves {l : ThreadStep (Job σ) (Job σ)} (h : s.Does l s') :
    s'.pool = s.pool ∨ PoolMove s.pool s'.pool := by
  cases h with
  | same | loses | reads => exact Or.inl rfl
  | push job => exact Or.inr (.push job)
  | signals _ hk | wakes hk => exact Or.inl (pool_place (q := .entering) hk rfl)
  | waits hk => exact Or.inl (pool_place hk rfl)
  | @locks k job result hk => exact Or.inl (pool_place (q := .pushing job result) hk rfl)
  | writes hk => exact Or.inl (pool_place (q := .written) hk rfl)
  | unlocks hk => exact Or.inl (pool_place (q := .entering) hk rfl)
  | @takes k job rest hk hjobs =>
      right
      show PoolMove s.pool ⟨rest, (s.threads.set k (.working job)).map ThreadPlace.worker, _⟩
      rw [s.workers_place]
      exact .take (worker_getElem? hk) hjobs
  | @works k job hk result =>
      right
      show PoolMove s.pool ⟨_, (s.threads.set k (.finished job result)).map ThreadPlace.worker, _⟩
      rw [s.workers_place]
      exact .run (worker_getElem? hk) result
  | @puts k job result hk =>
      right
      show PoolMove s.pool ⟨_, (s.threads.set k .pushed).map ThreadPlace.worker,
        (s.results ++ [(job, result)]).map Prod.snd⟩
      rw [s.workers_place, List.map_append]
      exact .finish (worker_getElem? hk)
  | @pops r rest _ hresults =>
      right
      have hpool : s.pool.results = r.2 :: rest.map Prod.snd := congrArg (List.map Prod.snd) hresults
      exact .pop hpool

end Refinement

/-! ## Every run -/

namespace PoolThreads

variable {s s' : PoolThreads J R}

/-- A step of a run; there is none any more once a result was missing. -/
def tick (o : Option (PoolThreads J R)) (l : ThreadStep J R) : Option (PoolThreads J R) := o.bind (·.step l)

/-- What comes of a state by any steps. -/
def Reaches : PoolThreads J R → PoolThreads J R → Prop := Relation.ReflTransGen fun s s' => ∃ l, s.Does l s'

theorem sound_start (n : ℕ) : (start n : PoolThreads J R).Sound := by
  have hcount : ∀ f : ThreadPlace J R → Bool, f .entering = false → (start n).count f = 0 := by
    intro f hf
    simp [count, start, List.countP_replicate, hf]
  refine ⟨?_, hcount _ rfl, fun hpos => ?_, rfl, rfl, ?_⟩
  · rw [hcount _ rfl]
    rfl
  · rw [hcount _ rfl] at hpos
    exact absurd hpos (Nat.lt_irrefl 0)
  · have hhand : (start n : PoolThreads J R).inHand = [] := by
      rw [inHand, List.flatMap_eq_nil_iff]
      intro t ht
      rw [List.eq_of_mem_replicate ht]
      rfl
    rw [hhand]
    exact .nil

/-- **The run lemma.** -/
theorem Sound.run (ls : List (ThreadStep J R)) : ∀ {s : PoolThreads J R}, s.Sound →
    ∃ s', ls.foldl tick (some s) = some s' ∧ s'.Sound ∧ s.Reaches s' := by
  induction ls with
  | nil => exact fun {s} h => ⟨s, rfl, h, .refl⟩
  | cons l ls ih =>
      intro s h
      obtain ⟨s₁, hstep⟩ := h.exists_step l
      have hdoes := step_does hstep
      obtain ⟨s', hrun, hs', hrest⟩ := ih (h.does hdoes)
      refine ⟨s', ?_, hs', .head ⟨l, hdoes⟩ hrest⟩
      rw [List.foldl_cons, tick, Option.bind_some, hstep]
      exact hrun

/-- A step that does something, and neither brings a job nor wakes a thread without a signal. -/
def Progresses (o : Option (PoolThreads J R)) (l : ThreadStep J R) : Prop :=
  (∀ job, l ≠ .push job) ∧ (∀ k, l ≠ .wake k) ∧ tick o l ≠ o

/-- A pool left alone comes to an end. -/
theorem Sound.length_le_left (ls : List (ThreadStep J R)) : ∀ {s : PoolThreads J R}, s.Sound →
    Guarded tick Progresses (some s) ls → ls.length ≤ s.left := by
  induction ls with
  | nil => exact fun _ _ => Nat.zero_le _
  | cons l ls ih =>
      intro s h hls
      obtain ⟨⟨hpush, hwake, hne⟩, hrest⟩ := hls
      obtain ⟨s', hstep⟩ := h.exists_step l
      have hdoes := step_does hstep
      have htick : tick (some s) l = some s' := hstep
      rw [htick] at hne hrest
      rcases left_step hpush hwake hdoes with rfl | hlt
      · exact absurd rfl hne
      · exact (Nat.succ_le_succ (ih (h.does hdoes) hrest)).trans hlt

theorem length_run (h : s.Reaches s') : s'.threads.length = s.threads.length := by
  induction h with
  | refl => rfl
  | tail _ hstep ih =>
      obtain ⟨l, hdoes⟩ := hstep
      rw [← ih]
      cases hdoes <;> simp [PoolThreads.place]

theorem InOrder.run (h : s.InOrder) (hrun : s.Reaches s') : s'.InOrder := by
  induction hrun with
  | refl => exact h
  | tail _ hstep ih => exact ih.step hstep.choose_spec

theorem moves_run {σ : Type} {s s' : PoolThreads (Job σ) (Job σ)} (h : s.Reaches s') :
    Relation.ReflTransGen PoolMove s.pool s'.pool := by
  induction h with
  | refl => exact .refl
  | tail _ hstep ih =>
      rcases hstep.choose_spec.moves with hsame | hmove
      · rw [hsame]
        exact ih
      · exact ih.tail hmove

end PoolThreads

/-- **The threads of a pool.**  The loop is never told of a result that is not there.  Each job is in one
place: still in the queue, with a thread, among the results, or taken back; what a thread makes of its job is
any result.  In a pool with at least one thread in which nothing goes on, all were taken back: no wakeup and no
byte is lost; and a pool that is left alone comes to a state in which nothing goes on.  With one thread they come
back in their order.  For the loop, the threads are a pool of `Ssdb.NetworkServer`. -/
theorem pool_threads {σ : Type} (n : ℕ) (ls : List (ThreadStep (Job σ) (Job σ))) :
    ∃ s, ls.foldl PoolThreads.tick (some (PoolThreads.start n)) = some s ∧
      s.given.Perm (s.received.map Prod.fst ++ s.results.map Prod.fst ++ s.inHand ++ s.jobs) ∧
      (0 < s.bytes → s.pool.results ≠ []) ∧
      (n ≠ 0 → s.Idle → s.given.Perm (s.received.map Prod.fst)) ∧
      (∀ more, Guarded PoolThreads.tick PoolThreads.Progresses (some s) more → more.length ≤ s.left) ∧
      (n = 1 → s.received.map Prod.fst <+: s.given) ∧
      Relation.ReflTransGen PoolMove ⟨[], List.replicate n .idle, []⟩ s.pool := by
  obtain ⟨s, hrun, hs, hdoes⟩ := PoolThreads.Sound.run ls (PoolThreads.sound_start n)
  refine ⟨s, hrun, ?_, ?_, ?_, fun more hmore => hs.length_le_left more hmore, ?_, ?_⟩
  · have honce := hs.once
    rw [hs.ended, List.map_append] at honce
    rw [hs.given]
    exact honce.append_right _
  · intro hbytes hnil
    have hresults : s.results = [] := List.map_eq_nil_iff.mp hnil
    have htokens := hs.tokens
    rw [hresults, List.length_nil] at htokens
    omega
  · intro hn hidle
    refine hs.received_of_idle hidle id fun hnil => hn ?_
    have hlength := PoolThreads.length_run hdoes
    rw [hnil] at hlength
    simpa [PoolThreads.start] using hlength.symm
  · rintro rfl
    obtain ⟨t, -, htaken⟩ := PoolThreads.InOrder.run ⟨.entering, rfl, rfl⟩ hdoes
    rw [hs.given, htaken, hs.ended, List.map_append, List.append_assoc, List.append_assoc]
    exact List.prefix_append _ _
  · have hmoves := PoolThreads.moves_run hdoes
    have hstart : (PoolThreads.start n : PoolThreads (Job σ) (Job σ)).pool = ⟨[], List.replicate n .idle, []⟩ := by
      simp [PoolThreads.pool, PoolThreads.start, ThreadPlace.worker]
    rw [hstart] at hmoves
    exact hmoves

/-! ## The pools of the loop -/

namespace NetServer

variable {σ : Type} {cfg : ServerConfig σ} {s s' : NetServer σ}

theorem Settles.pool {id : ℕ} {c : Conn} {second : Bool} (h : s.Settles id c second s') (writer : Bool) :
    s'.pool writer = s.pool writer := by
  cases h with
  | deleted | polled => rfl
  | pushed => cases second <;> rfl

theorem Serves.pool {id : ℕ} {c : Conn} {readable : Bool} (h : s.Serves id c readable s') (writer : Bool) :
    s'.pool writer = s.pool writer := by
  cases h <;> rfl

/-- One pool moves, and the other one stays. -/
theorem moves_of {lender : Bool} (hlent : PoolMove (s.pool lender) (s'.pool lender))
    (hother : s'.pool (!lender) = s.pool (!lender)) (writer : Bool) :
    s'.pool writer = s.pool writer ∨ PoolMove (s.pool writer) (s'.pool writer) := by
  by_cases hwriter : writer = lender
  · rw [hwriter]
    exact Or.inr hlent
  · rw [Bool.eq_not_of_ne hwriter]
    exact Or.inl hother

theorem moves_setPool {lender : Bool} {p : Pool σ} (h : PoolMove (s.pool lender) p) (writer : Bool) :
    (s.setPool lender p).pool writer = s.pool writer ∨
      PoolMove (s.pool writer) ((s.setPool lender p).pool writer) := by
  refine @moves_of σ s (s.setPool lender p) lender ?_ ?_ writer
  · cases lender <;> exact h
  · cases lender <;> rfl

theorem Takes.moves {id : ℕ} {c : Conn} (h : s.Takes cfg id c s') (writer : Bool) :
    s'.pool writer = s.pool writer ∨ PoolMove (s.pool writer) (s'.pool writer) := by
  cases h with
  | deleted | waits => exact Or.inl rfl
  | handles _ _ hs' =>
      cases hs' with
      | settled _ hs₁ _ hs' => exact Or.inl ((hs'.pool writer).trans (hs₁.pool writer))
      | lent lender p =>
          refine @moves_of σ s _ lender ?_ ?_ writer
          · cases lender <;> exact .push ⟨id, p, .ok⟩
          · cases lender <;> rfl
      | backend _ hs₁ => exact Or.inl (hs₁.pool writer)

/-- What a step of the loop or of the workers is for a pool: nothing, or a step of it. -/
theorem Does.moves (h : Does cfg s s') (writer : Bool) :
    s'.pool writer = s.pool writer ∨ PoolMove (s.pool writer) (s'.pool writer) := by
  induction h with
  | turns => exact Or.inl rfl
  | event _ ih => exact ih
  | accepts s accepted =>
      left
      cases accepted with
      | none => rfl
      | some a =>
          rw [acceptLink]
          split <;> rfl
  | settles hresults _ hs' =>
      rw [hs'.pool]
      exact moves_setPool (.pop hresults) writer
  | serves _ _ hs' => exact Or.inl (hs'.pool writer)
  | takes _ _ hs' => exact hs'.moves writer
  | fetches hk hjobs => exact moves_setPool (.take hk hjobs) writer
  | @carries s _ lender k job c hk _ hs' =>
      cases hs' with
      | mk result hs₁ _ _ =>
          refine @moves_of σ s _ lender ?_ ?_ writer
          · cases lender <;> exact .run hk { job with result := result }
          · have hother := hs₁.pool (!lender)
            cases lender <;> exact hother
  | finishes hk => exact moves_setPool (.finish hk) writer
  | closes => exact Or.inl rfl

/-- **The loop sees nothing but a pool**: in every run of it, its pools change as a pool of threads does. -/
theorem loop_pools (cfg : ServerConfig σ) (readers writers : ℕ) (data : σ) (ls : List LoopStep)
    (h : Guarded (tick cfg) Possible (some (start readers writers data)) ls) (writer : Bool) :
    ∃ s, ls.foldl (tick cfg) (some (start readers writers data)) = some s ∧
      Relation.ReflTransGen PoolMove ((start readers writers data).pool writer) (s.pool writer) := by
  have hrun := h.invariant (I := fun o => ∃ s : NetServer σ, o = some s ∧ s.Orderly ∧
      Relation.ReflTransGen PoolMove ((start readers writers data).pool writer) (s.pool writer)) ?_
    ⟨_, rfl, orderly_start readers writers data, .refl⟩
  · obtain ⟨s, heq, -, hs⟩ := hrun
    exact ⟨s, heq, hs⟩
  · rintro _ l ⟨s, rfl, hs, hmoves⟩ hl
    obtain ⟨s', heq, hs', hdoes⟩ := hs.step cfg (hl s rfl)
    refine ⟨s', heq, hs', ?_⟩
    rcases hdoes.moves writer with hsame | hmove
    · rw [hsame]
      exact hmoves
    · exact hmoves.tail hmove

end NetServer

end Ssdb
