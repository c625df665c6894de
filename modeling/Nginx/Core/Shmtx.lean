import Nginx.Library.Interleaving

namespace Nginx.Shmtx

open Interleaving

-- ngx_atomic_uint_t and ngx_uint_t are words of the machine.
inductive Machine
  | bits32
  | bits64
  deriving DecidableEq

def Machine.width : Machine → ℕ
  | .bits32 => 32
  | .bits64 => 64

-- Fields and globals which the three functions read and do not write.
structure Mtx where
  machine : Machine
  ncpu : ℕ
  spin : ℕ
  semaphore : Bool

structure Shared where
  lock : ℕ
  sem : ℕ
  deriving DecidableEq

-- errno of sem_wait() and sem_post()
inductive Errno
  | eintr
  | einval
  | eoverflow
  deriving DecidableEq

def semValueMax : ℕ := 2147483647

-- A semaphore that was set up by sem_init(). No result means that the caller sleeps.
def semWait (interrupted : Bool) (sem : ℕ) : Option (Except Errno ℕ) :=
  if interrupted then some (.error .eintr)
  else if sem = 0 then none
  else some (.ok (sem - 1))

def semPost (sem : ℕ) : Except Errno ℕ :=
  if sem < semValueMax then .ok (sem + 1) else .error .eoverflow

-- The point a process has come to. A stale value of the word is part of it.
inductive Place
  | idle
  | tryLoad
  | tryCas (val : ℕ)
  | lockLoad
  | lockCas (val : ℕ)
  | spinLoad (n : ℕ)
  | spinCas (n val : ℕ)
  | waitLoad
  | waitCas (val : ℕ)
  | semWait
  | held
  | unlockLoad
  | unlockCas (old : ℕ)
  | semPost
  deriving DecidableEq

inductive Choice
  | trylock
  | lock
  | interrupt
  | go
  deriving DecidableEq

def cmpSet (lock old set : ℕ) : Option ℕ := if lock = old then some set else none

-- if ((val & 0x80000000) == 0 && ngx_atomic_cmp_set(mtx->lock, val, val | 0x80000000))
def take (lock val : ℕ) : Option ℕ :=
  if val &&& 0x80000000 = 0 then cmpSet lock val (val ||| 0x80000000) else none

-- if ((val & 0x80000000) && ngx_atomic_cmp_set(mtx->lock, val, val + 1))
def enqueue (mtx : Mtx) (lock val : ℕ) : Option ℕ :=
  if val &&& 0x80000000 = 0 then none
  else cmpSet lock val ((val + 1) % 2 ^ mtx.machine.width)

def waiters (old : ℕ) : ℕ := old &&& 0x7fffffff

def release (lock old : ℕ) : Option ℕ :=
  let wait := waiters old
  cmpSet lock old (if wait ≠ 0 then wait - 1 else 0)

-- Behind the spinning: the semaphore, or ngx_sched_yield() and the loop again.
def afterSpin (mtx : Mtx) : Place := if mtx.semaphore then .waitLoad else .lockLoad

-- for (n = 1; n < mtx->spin; n <<= 1)
def spinFrom (mtx : Mtx) (n : ℕ) : Place :=
  if n < mtx.spin then .spinLoad n else afterSpin mtx

def afterTry (mtx : Mtx) : Place := if mtx.ncpu > 1 then spinFrom mtx 1 else afterSpin mtx

def turn (mtx : Mtx) (choice : Choice) (s : Shared) : Place → Option (Shared × Place)
  | .idle =>
      match choice with
      | .trylock => some (s, .tryLoad)
      | .lock => some (s, .lockLoad)
      | _ => none
  | .tryLoad => some (s, .tryCas s.lock)
  | .tryCas val =>
      match take s.lock val with
      | some lock => some (⟨lock, s.sem⟩, .held)
      | none => some (s, .idle)
  | .lockLoad => some (s, .lockCas s.lock)
  | .lockCas val =>
      match take s.lock val with
      | some lock => some (⟨lock, s.sem⟩, .held)
      | none => some (s, afterTry mtx)
  | .spinLoad n => some (s, .spinCas n s.lock)
  | .spinCas n val =>
      match take s.lock val with
      | some lock => some (⟨lock, s.sem⟩, .held)
      | none => some (s, spinFrom mtx ((n * 2) % 2 ^ mtx.machine.width))
  | .waitLoad => some (s, .waitCas s.lock)
  | .waitCas val =>
      match enqueue mtx s.lock val with
      | some lock => some (⟨lock, s.sem⟩, .semWait)
      | none => some (s, .lockLoad)
  | .semWait =>
      match semWait (choice = .interrupt) s.sem with
      | none => none
      | some (.ok sem) => some (⟨s.lock, sem⟩, .lockLoad)
      | some (.error err) => if err ≠ .eintr then some (s, .lockLoad) else some (s, .semWait)
  | .held => some (s, .unlockLoad)
  | .unlockLoad => some (s, .unlockCas s.lock)
  | .unlockCas old =>
      match release s.lock old with
      | some lock =>
          if waiters old = 0 || !mtx.semaphore then some (⟨lock, s.sem⟩, .idle)
          else some (⟨lock, s.sem⟩, .semPost)
      | none => some (s, .unlockLoad)
  | .semPost =>
      match semPost s.sem with
      | .ok sem => some (⟨s.lock, sem⟩, .idle)
      | .error _ => some (s, .idle)

def Turn (mtx : Mtx) (s : Shared) (p : Place) (s' : Shared) (p' : Place) : Prop :=
  ∃ choice, turn mtx choice s p = some (s', p')

variable {P : Type}

-- ngx_shmtx_create() on zeroed shared memory
def start : State P Shared Place := ⟨⟨0, 0⟩, fun _ => .idle⟩

def Reached [DecidableEq P] (mtx : Mtx) (s : State P Shared Place) : Prop :=
  Reachable (Turn mtx) start s

def holds : Place → ℕ
  | .held => 1
  | .unlockLoad => 1
  | .unlockCas _ => 1
  | _ => 0

def sleeps : Place → ℕ
  | .semWait => 1
  | _ => 0

-- Between the compare-and-set of an unlock and its sem_post().
def owes : Place → ℕ
  | .semPost => 1
  | _ => 0

def queues : Place → ℕ
  | .waitLoad => 1
  | .waitCas _ => 1
  | _ => 0

-- In ngx_shmtx_lock() and not in sem_wait().
def tries : Place → ℕ
  | .lockLoad => 1
  | .lockCas _ => 1
  | .spinLoad _ => 1
  | .spinCas _ _ => 1
  | .waitLoad => 1
  | .waitCas _ => 1
  | _ => 0

theorem and_lockBit (val : ℕ) : val &&& 0x80000000 = 0 ↔ val / 2 ^ 31 % 2 = 0 := by
  have hbit := Nat.and_two_pow val 31
  rw [Nat.testBit_eq_decide_div_mod_eq] at hbit
  have hconst : (2 : ℕ) ^ 31 = 0x80000000 := rfl
  rw [hconst] at hbit ⊢
  rw [hbit]
  by_cases h : val / 0x80000000 % 2 = 1
  · simp [h]
  · simp only [h, decide_false, Bool.toNat_false, Nat.zero_mul, true_iff]
    omega

theorem waiters_eq (val : ℕ) : waiters val = val % 2 ^ 31 :=
  Nat.and_two_pow_sub_one_eq_mod val 31

theorem take_some {lock val lock' : ℕ} (hlock : lock < 2 ^ 32) (h : take lock val = some lock') :
    lock < 2 ^ 31 ∧ lock' = lock + 2 ^ 31 := by
  unfold take cmpSet at h
  split at h
  · rename_i hbit
    split at h
    · rename_i heq
      subst heq
      have hlow : lock < 2 ^ 31 := by
        have := (and_lockBit lock).mp hbit
        omega
      have hor := Nat.or_two_pow_eq_add_of_lt hlow
      exact ⟨hlow, (Option.some.inj h).symm.trans hor⟩
    · cases h
  · cases h

theorem enqueue_some {mtx : Mtx} {lock val lock' : ℕ} (hlock : lock + 1 < 2 ^ 32)
    (h : enqueue mtx lock val = some lock') : 2 ^ 31 ≤ lock ∧ lock' = lock + 1 := by
  unfold enqueue cmpSet at h
  split at h
  · cases h
  · rename_i hbit
    split at h
    · rename_i heq
      subst heq
      have hhigh : 2 ^ 31 ≤ lock := by
        rw [and_lockBit] at hbit
        omega
      have hwrap : (lock + 1) % 2 ^ mtx.machine.width = lock + 1 := by
        cases hm : mtx.machine with
        | bits32 => exact Nat.mod_eq_of_lt hlock
        | bits64 =>
            apply Nat.mod_eq_of_lt
            have hwide : (2 : ℕ) ^ 32 ≤ 2 ^ Machine.bits64.width := Nat.pow_le_pow_right (by decide) (by decide)
            omega
      exact ⟨hhigh, (Option.some.inj h).symm.trans hwrap⟩
    · cases h

theorem release_some {lock old lock' : ℕ} (h : release lock old = some lock') :
    old = lock ∧ lock' = lock % 2 ^ 31 - 1 := by
  unfold release cmpSet at h
  dsimp only at h
  rw [waiters_eq] at h
  split at h
  · rename_i heq
    subst heq
    refine ⟨rfl, (Option.some.inj h).symm.trans ?_⟩
    split <;> omega
  · cases h

-- What the numbers of processes at the places have to do with the word and the semaphore.
structure Books (mtx : Mtx) (s : Shared) (holding sleeping owing queuing trying : ℕ) : Prop where
  word : s.lock < 2 ^ 32
  bit : s.lock / 2 ^ 31 = holding
  waits : s.lock % 2 ^ 31 + s.sem + owing = sleeping
  none : mtx.semaphore = false → sleeping = 0 ∧ queuing = 0
  awake : 0 < s.lock % 2 ^ 31 → 0 < holding + s.sem + owing + trying

-- A place that a process which does not hold the mutex and does not sleep may come to.
structure Looping (mtx : Mtx) (p : Place) : Prop where
  holds : holds p = 0
  sleeps : sleeps p = 0
  owes : owes p = 0
  tries : tries p = 1
  queues : mtx.semaphore = false → queues p = 0

theorem afterSpin_looping (mtx : Mtx) : Looping mtx (afterSpin mtx) := by
  unfold afterSpin
  split
  · rename_i h
    exact ⟨rfl, rfl, rfl, rfl, fun hno => by simp [hno] at h⟩
  · exact ⟨rfl, rfl, rfl, rfl, fun _ => rfl⟩

theorem spinFrom_looping (mtx : Mtx) (n : ℕ) : Looping mtx (spinFrom mtx n) := by
  unfold spinFrom
  split
  · exact ⟨rfl, rfl, rfl, rfl, fun _ => rfl⟩
  · exact afterSpin_looping mtx

theorem afterTry_looping (mtx : Mtx) : Looping mtx (afterTry mtx) := by
  unfold afterTry
  split
  · exact spinFrom_looping mtx 1
  · exact afterSpin_looping mtx

section Turn

variable {mtx : Mtx} {choice : Choice} {s s' : Shared} {p p' : Place}
  {h a o q w h' a' o' q' w' n : ℕ}

-- How the numbers follow one process from p to p'.
structure Moved (p p' : Place) (h a o q w h' a' o' q' w' : ℕ) : Prop where
  holds : h' + holds p = h + holds p'
  sleeps : a' + sleeps p = a + sleeps p'
  owes : o' + owes p = o + owes p'
  queues : q' + queues p = q + queues p'
  tries : w' + tries p = w + tries p'

theorem Books.quiet (hb : Books mtx s h a o q w) (hm : Moved p p' h a o q w h' a' o' q' w')
    (hholds : Shmtx.holds p' = Shmtx.holds p) (hsleeps : Shmtx.sleeps p' = Shmtx.sleeps p)
    (howes : Shmtx.owes p' = Shmtx.owes p) (htries : Shmtx.tries p ≤ Shmtx.tries p')
    (hqueues : mtx.semaphore = false → Shmtx.queues p' = 0) : Books mtx s h' a' o' q' w' := by
  obtain ⟨word, bit, waits, hnone, awake⟩ := hb
  obtain ⟨mh, ma, mo, mq, mw⟩ := hm
  refine ⟨word, by omega, by omega, fun hsem => ?_, fun hpos => ?_⟩
  · have := hnone hsem
    have := hqueues hsem
    omega
  · have := awake hpos
    omega

theorem Books.loop (hb : Books mtx s h a o q w) (hm : Moved p p' h a o q w h' a' o' q' w')
    (hp : Looping mtx p) (hp' : Looping mtx p') : Books mtx s h' a' o' q' w' :=
  hb.quiet hm (hp'.holds.trans hp.holds.symm) (hp'.sleeps.trans hp.sleeps.symm)
    (hp'.owes.trans hp.owes.symm) (by rw [hp.tries, hp'.tries]) hp'.queues

-- The word gets its upper bit: nobody held the mutex.
theorem Books.taken {lock val : ℕ} (hb : Books mtx s h a o q w)
    (hm : Moved p .held h a o q w h' a' o' q' w') (hholds : Shmtx.holds p = 0)
    (hsleeps : Shmtx.sleeps p = 0) (howes : Shmtx.owes p = 0)
    (ht : take s.lock val = some lock) : Books mtx ⟨lock, s.sem⟩ h' a' o' q' w' := by
  obtain ⟨word, bit, waits, hnone, awake⟩ := hb
  obtain ⟨mh, ma, mo, mq, mw⟩ := hm
  obtain ⟨hlow, rfl⟩ := take_some word ht
  rw [hholds] at mh
  rw [hsleeps] at ma
  rw [howes] at mo
  change h' + 0 = h + 1 at mh
  change a' + 0 = a + 0 at ma
  change o' + 0 = o + 0 at mo
  change q' + _ = q + 0 at mq
  refine ⟨by dsimp only; omega, by dsimp only; omega, by dsimp only; omega, fun hsem => ?_,
    fun _ => by omega⟩
  have := hnone hsem
  omega

theorem Books.enqueued {lock val : ℕ} (hb : Books mtx s h a o q w) (hn : n < 2 ^ 31)
    (hcard : a + q ≤ n) (hm : Moved (.waitCas val) .semWait h a o q w h' a' o' q' w')
    (ht : enqueue mtx s.lock val = some lock) : Books mtx ⟨lock, s.sem⟩ h' a' o' q' w' := by
  obtain ⟨word, bit, waits, hnone, awake⟩ := hb
  obtain ⟨mh, ma, mo, mq, mw⟩ := hm
  simp only [Shmtx.holds, Shmtx.sleeps, Shmtx.owes, Shmtx.queues, Shmtx.tries] at mh ma mo mq mw
  -- The process itself is not among the sleepers yet.
  have hroom : s.lock % 2 ^ 31 + 1 < 2 ^ 31 := by omega
  obtain ⟨hhigh, rfl⟩ := enqueue_some (by omega) ht
  refine ⟨by dsimp only; omega, by dsimp only; omega, by dsimp only; omega, fun hsem => ?_,
    fun _ => by omega⟩
  have := hnone hsem
  omega

theorem Books.released {lock old : ℕ} (hb : Books mtx s h a o q w)
    (hm : Moved (.unlockCas old) p' h a o q w h' a' o' q' w')
    (hp' : p' = if waiters old = 0 || !mtx.semaphore then .idle else .semPost) (hholds : h ≤ 1)
    (ht : release s.lock old = some lock) : Books mtx ⟨lock, s.sem⟩ h' a' o' q' w' := by
  obtain ⟨word, bit, waits, hnone, awake⟩ := hb
  obtain ⟨mh, ma, mo, mq, mw⟩ := hm
  obtain ⟨rfl, rfl⟩ := release_some ht
  have hsem : mtx.semaphore = false → s.lock % 2 ^ 31 = 0 := fun hno => by
    have := hnone hno
    omega
  by_cases hwait : waiters s.lock = 0
  · have hidle : p' = .idle := by rw [hp', hwait]; rfl
    rw [waiters_eq] at hwait
    subst hidle
    simp only [Shmtx.holds, Shmtx.sleeps, Shmtx.owes, Shmtx.queues, Shmtx.tries] at mh ma mo mq mw
    refine ⟨by dsimp only; omega, by dsimp only; omega, by dsimp only; omega, fun hno => ?_,
      fun hpos => by dsimp only at hpos; omega⟩
    have := hnone hno
    omega
  · have hyes : mtx.semaphore = true := by
      by_contra hno
      exact hwait ((waiters_eq _).trans (hsem (Bool.eq_false_iff.mpr hno)))
    have hpost : p' = .semPost := by simpa [hwait, hyes] using hp'
    rw [waiters_eq] at hwait
    subst hpost
    simp only [Shmtx.holds, Shmtx.sleeps, Shmtx.owes, Shmtx.queues, Shmtx.tries] at mh ma mo mq mw
    refine ⟨by dsimp only; omega, by dsimp only; omega, by dsimp only; omega, fun hno => ?_,
      fun _ => by dsimp only; omega⟩
    rw [hyes] at hno
    cases hno

theorem Books.awoken {sem : ℕ} {interrupted : Bool} (hb : Books mtx s h a o q w)
    (hm : Moved .semWait .lockLoad h a o q w h' a' o' q' w')
    (ht : semWait interrupted s.sem = some (.ok sem)) : Books mtx ⟨s.lock, sem⟩ h' a' o' q' w' := by
  obtain ⟨word, bit, waits, hnone, awake⟩ := hb
  obtain ⟨mh, ma, mo, mq, mw⟩ := hm
  simp only [Shmtx.holds, Shmtx.sleeps, Shmtx.owes, Shmtx.queues, Shmtx.tries] at mh ma mo mq mw
  have hsem : s.sem = sem + 1 := by
    unfold semWait at ht
    split at ht
    · cases ht
    · split at ht
      · cases ht
      · rename_i hpos
        have := Except.ok.inj (Option.some.inj ht)
        omega
  refine ⟨word, by dsimp only; omega, by dsimp only; omega, fun hno => ?_, fun _ => by omega⟩
  have := hnone hno
  omega

theorem Books.posted (hb : Books mtx s h a o q w) (hn : n < 2 ^ 31) (hcard : a + q ≤ n)
    (hm : Moved .semPost .idle h a o q w h' a' o' q' w') :
    ∃ sem, semPost s.sem = .ok sem ∧ Books mtx ⟨s.lock, sem⟩ h' a' o' q' w' := by
  obtain ⟨word, bit, waits, hnone, awake⟩ := hb
  obtain ⟨mh, ma, mo, mq, mw⟩ := hm
  simp only [Shmtx.holds, Shmtx.sleeps, Shmtx.owes, Shmtx.queues, Shmtx.tries] at mh ma mo mq mw
  refine ⟨s.sem + 1, ?_, word, by dsimp only; omega, by dsimp only; omega, fun hno => ?_, fun hpos => ?_⟩
  · unfold semPost semValueMax
    rw [if_pos (by omega)]
  · have := hnone hno
    omega
  · dsimp only at hpos ⊢
    omega

theorem turn_books (hb : Books mtx s h a o q w) (hn : n < 2 ^ 31) (hcard : a + q ≤ n)
    (hq : Shmtx.queues p ≤ q) (hm : Moved p p' h a o q w h' a' o' q' w') (ht : turn mtx choice s p = some (s', p')) :
    Books mtx s' h' a' o' q' w' := by
  have hone : h ≤ 1 := by
    have := hb.word
    have := hb.bit
    omega
  cases p with
  | idle =>
      cases choice <;> cases ht
      · exact hb.quiet hm rfl rfl rfl (Nat.le_refl _) fun _ => rfl
      · exact hb.quiet hm rfl rfl rfl (Nat.zero_le _) fun _ => rfl
  | tryLoad =>
      cases ht
      exact hb.quiet hm rfl rfl rfl (Nat.le_refl _) fun _ => rfl
  | tryCas val =>
      simp only [turn] at ht
      split at ht
      · cases ht
        exact hb.taken hm rfl rfl rfl ‹_›
      · cases ht
        exact hb.quiet hm rfl rfl rfl (Nat.le_refl _) fun _ => rfl
  | lockLoad =>
      cases ht
      exact hb.quiet hm rfl rfl rfl (Nat.le_refl _) fun _ => rfl
  | lockCas val =>
      simp only [turn] at ht
      split at ht
      · cases ht
        exact hb.taken hm rfl rfl rfl ‹_›
      · cases ht
        exact hb.loop hm ⟨rfl, rfl, rfl, rfl, fun _ => rfl⟩ (afterTry_looping mtx)
  | spinLoad k =>
      cases ht
      exact hb.quiet hm rfl rfl rfl (Nat.le_refl _) fun _ => rfl
  | spinCas k val =>
      simp only [turn] at ht
      split at ht
      · cases ht
        exact hb.taken hm rfl rfl rfl ‹_›
      · cases ht
        exact hb.loop hm ⟨rfl, rfl, rfl, rfl, fun _ => rfl⟩ (spinFrom_looping mtx _)
  | waitLoad =>
      cases ht
      refine hb.quiet hm rfl rfl rfl (Nat.le_refl _) fun hno => ?_
      have hzero := (hb.none hno).2
      have hone := hq
      rw [hzero] at hone
      exact absurd hone (by decide)
  | waitCas val =>
      simp only [turn] at ht
      split at ht
      · cases ht
        exact hb.enqueued hn hcard hm ‹_›
      · cases ht
        exact hb.quiet hm rfl rfl rfl (Nat.le_refl _) fun _ => rfl
  | semWait =>
      simp only [turn] at ht
      split at ht
      · cases ht
      · cases ht
        exact hb.awoken hm ‹_›
      · rename_i err herr
        have heintr : err = .eintr := by
          unfold semWait at herr
          split at herr
          · exact (Except.error.inj (Option.some.inj herr)).symm
          · split at herr <;> cases herr
        rw [if_neg (not_not.mpr heintr)] at ht
        cases ht
        exact hb.quiet hm rfl rfl rfl (Nat.le_refl _) fun _ => rfl
  | held =>
      cases ht
      exact hb.quiet hm rfl rfl rfl (Nat.le_refl _) fun _ => rfl
  | unlockLoad =>
      cases ht
      exact hb.quiet hm rfl rfl rfl (Nat.le_refl _) fun _ => rfl
  | unlockCas old =>
      simp only [turn] at ht
      split at ht
      · rename_i lock hrel
        by_cases hwake : (waiters old = 0 || !mtx.semaphore) = true
        · rw [if_pos hwake] at ht
          cases ht
          exact hb.released hm (if_pos hwake).symm hone hrel
        · rw [if_neg hwake] at ht
          cases ht
          exact hb.released hm (if_neg hwake).symm hone hrel
      · cases ht
        exact hb.quiet hm rfl rfl rfl (Nat.le_refl _) fun _ => rfl
  | semPost =>
      simp only [turn] at ht
      split at ht
      · cases ht
        rename_i sem hpost
        obtain ⟨sem', hpost', hbooks⟩ := hb.posted hn hcard hm
        rw [hpost] at hpost'
        cases hpost'
        exact hbooks
      · cases ht
        rename_i hpost
        obtain ⟨sem', hpost', -⟩ := hb.posted hn hcard hm
        rw [hpost] at hpost'
        cases hpost'

end Turn

section Runs

variable [DecidableEq P] [Fintype P] {mtx : Mtx} {s s' : State P Shared Place}

def BooksOf (mtx : Mtx) (s : State P Shared Place) : Prop :=
  Books mtx s.shared (tally holds s.place) (tally sleeps s.place) (tally owes s.place)
    (tally queues s.place) (tally tries s.place)

-- A sleeping process is not one that is about to queue.
theorem sleeps_add_queues_le (p : Place) : sleeps p + queues p ≤ 1 := by
  cases p <;> simp [sleeps, queues]

theorem step_books (hcard : Fintype.card P < 2 ^ 31) (hb : BooksOf mtx s)
    (hs : Step (Turn mtx) s s') : BooksOf mtx s' := by
  cases hs with
  | turn p shared place hturn =>
      obtain ⟨choice, hturn⟩ := hturn
      have hsum := tally_le_card (fun l => sleeps l + queues l) s.place sleeps_add_queues_le
      rw [tally_add] at hsum
      refine turn_books hb hcard hsum (le_tally queues s.place p) ?_ hturn
      exact ⟨tally_update holds s.place p place, tally_update sleeps s.place p place,
        tally_update owes s.place p place, tally_update queues s.place p place,
        tally_update tries s.place p place⟩

theorem reached_books (hcard : Fintype.card P < 2 ^ 31) (h : Reached mtx s) : BooksOf mtx s := by
  refine h.invariant ?_ fun s s' hb hs => step_books hcard hb hs
  have hzero : ∀ weight : Place → ℕ, weight .idle = 0 →
      tally weight (start : State P Shared Place).place = 0 :=
    fun weight hidle => tally_const weight _ fun _ => hidle
  unfold BooksOf
  rw [hzero holds rfl, hzero sleeps rfl, hzero owes rfl, hzero queues rfl, hzero tries rfl]
  exact ⟨Nat.two_pow_pos 32, Nat.zero_div _, rfl, fun _ => ⟨rfl, rfl⟩, fun hpos => absurd hpos (Nat.lt_irrefl 0)⟩

-- Moves that cannot be made are left out.
def run (mtx : Mtx) (moves : List (P × Choice)) (s : State P Shared Place) : State P Shared Place :=
  moves.foldl
    (fun s move =>
      match turn mtx move.2 s.shared (s.place move.1) with
      | some (shared, place) => ⟨shared, Function.update s.place move.1 place⟩
      | none => s) s

omit [Fintype P] in
theorem run_reached (moves : List (P × Choice)) (h : Reached mtx s) :
    Reached mtx (run mtx moves s) := by
  induction moves generalizing s with
  | nil => exact h
  | cons move moves ih =>
      apply ih
      dsimp only
      split
      · rename_i shared place hturn
        exact h.step (.turn s move.1 shared place ⟨move.2, hturn⟩)
      · exact h

theorem lock_exclusive_and_counted (hcard : Fintype.card P < 2 ^ 31) (h : Reached mtx s) :
    (∀ p q, holds (s.place p) = 1 → holds (s.place q) = 1 → p = q) ∧
      waiters s.shared.lock + s.shared.sem + tally owes s.place = tally sleeps s.place := by
  obtain ⟨word, bit, waits, -, -⟩ := reached_books hcard h
  constructor
  · intro p q hp hq
    by_contra hne
    have htwo := add_le_tally holds s.place p q hne
    omega
  · rw [waiters_eq]
    exact waits

def twoCpu : Mtx := ⟨.bits64, 2, 2, true⟩

-- The first process gets the mutex, the second one spins once and sleeps.
def contended : State (Fin 2) Shared Place :=
  run twoCpu [(0, .trylock), (0, .go), (1, .lock), (1, .go), (0, .go), (1, .go), (1, .go), (1, .go),
    (1, .go), (1, .go)] start

example : contended.place 0 = .held ∧ contended.place 1 = .semWait ∧
    contended.shared = ⟨0x80000001, 0⟩ := by decide

theorem lock_exclusive_and_counted_contended :
    (∀ p q, holds (contended.place p) = 1 → holds (contended.place q) = 1 → p = q) ∧
      waiters contended.shared.lock + contended.shared.sem + tally owes contended.place =
        tally sleeps contended.place :=
  lock_exclusive_and_counted (by decide) (run_reached _ .start)

-- A process sleeps only while another one holds the mutex, is about to try it or is about to wake
-- a sleeper, or while a post is there to be consumed.
theorem sleeper_not_stranded (hcard : Fintype.card P < 2 ^ 31) (h : Reached mtx s) {p : P}
    (hp : sleeps (s.place p) = 1) :
    0 < s.shared.sem ∨ ∃ q, holds (s.place q) + owes (s.place q) + tries (s.place q) ≠ 0 := by
  obtain ⟨word, bit, waits, -, awake⟩ := reached_books hcard h
  have hsleep := le_tally sleeps s.place p
  have hpos : 0 < tally holds s.place + s.shared.sem + tally owes s.place + tally tries s.place := by
    by_cases hwait : 0 < s.shared.lock % 2 ^ 31
    · exact awake hwait
    · omega
  by_cases hsem : 0 < s.shared.sem
  · exact .inl hsem
  · right
    have hsum : 0 < tally (fun l => holds l + owes l + tries l) s.place := by
      rw [tally_add, tally_add]
      omega
    obtain ⟨q, hq⟩ := exists_of_tally_pos _ _ hsum
    exact ⟨q, by omega⟩

end Runs

end Nginx.Shmtx
