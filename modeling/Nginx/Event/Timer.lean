import Nginx.Core.Bytes
import Nginx.Core.Rbtree
import Nginx.Core.Rbtree.Delete
import Nginx.Core.Rbtree.Insert
import Nginx.Library.SerialOrder

namespace Nginx.Timer

open LinkedTree Rbtree

-- ngx_event_timer_rbtree with the fields of the events, which are named by their nodes ev->timer,
-- and ngx_current_msec. asked is not of the source: the deadline of the last call of
-- ngx_event_add_timer for each event.
structure Timers where
  nodes : Nodes
  key : Ptr → Nat
  timerSet : Ptr → Bool
  timedout : Ptr → Bool
  now : Nat
  asked : Ptr → Nat

-- (ngx_msec_int_t) a - (ngx_msec_int_t) b
def minus (a b : Nat) : Int := toInt64 (toInt64 a - toInt64 b)

-- ngx_abs of an ngx_msec_int_t: the least value has no counterpart.
def msecAbs (diff : Int) : Int := if 0 ≤ diff then diff else toInt64 (-diff)

-- ngx_rbtree_insert_timer_value
def insertTimerValue (key : Ptr → Nat) (fuel : Nat) (s : Ptr) (H : Nodes) (temp node : Ptr) :
    Option Nodes :=
  insertBy (fun temp => minus (key node) (key temp) < 0) fuel s H temp node

-- ngx_event_timer_init
def timerInit (s : Ptr) (σ : Timers) : Timers :=
  { σ with nodes := (σ.nodes.setLabel s false).setRoot s, timerSet := fun _ => false }

-- NGX_TIMER_LAZY_DELAY
def lazyDelay : Int := 300

section Calls

variable (fuel : Nat) (s : Ptr)

-- ngx_event_del_timer. ngx_rbtree_delete clears the key.
def delTimer (σ : Timers) (ev : Ptr) : Option Timers := do
  let H ← delete fuel s σ.nodes ev
  return { σ with
    nodes := H
    key := Function.update σ.key ev 0
    timerSet := Function.update σ.timerSet ev false }

def deadline (σ : Timers) (timer : Nat) : Nat := (σ.now + timer) % 2 ^ 64

-- The previous timer value is used.
def kept (σ : Timers) (ev : Ptr) (timer : Nat) : Bool :=
  σ.timerSet ev && decide (msecAbs (toInt64 (deadline σ timer - σ.key ev)) < lazyDelay)

-- ngx_event_add_timer
def addTimer (σ : Timers) (ev : Ptr) (timer : Nat) : Option Timers := do
  let key := deadline σ timer
  if kept σ ev timer then return { σ with asked := Function.update σ.asked ev key }
  else
    let σ ← if σ.timerSet ev then delTimer fuel s σ ev else some σ
    let σ := { σ with key := Function.update σ.key ev key, asked := Function.update σ.asked ev key }
    let H ← insert (insertTimerValue σ.key) fuel s σ.nodes ev
    return { σ with nodes := H, timerSet := Function.update σ.timerSet ev true }

-- ngx_event_find_timer
def findTimer (σ : Timers) : Option Nat := do
  if σ.nodes.root = s then return 2 ^ 64 - 1
  else
    let node ← Rbtree.min s σ.nodes fuel σ.nodes.root
    let timer := minus (σ.key node) σ.now
    return toSize (if 0 < timer then timer else 0)

inductive Call where
  | add (ev : Ptr) (timer : Nat)
  | del (ev : Ptr)

def Call.ev : Call → Ptr
  | .add ev _ => ev
  | .del ev => ev

def call (σ : Timers) : Call → Option Timers
  | .add ev timer => addTimer fuel s σ ev timer
  | .del ev => delTimer fuel s σ ev

-- The loop of ngx_event_expire_timers up to the call of a handler; the inner none leaves the loop.
def turn (σ : Timers) : Option (Option (Ptr × Timers)) := do
  if σ.nodes.root = s then return none
  else
    let node ← Rbtree.min s σ.nodes fuel σ.nodes.root
    if minus (σ.key node) σ.now ≤ 0 then
      let σ ← delTimer fuel s σ node
      return some (node, { σ with timedout := Function.update σ.timedout node true })
    else return none

-- An event whose handler was called: its key, and the deadline asked for last.
structure Fired where
  ev : Ptr
  key : Nat
  asked : Nat
deriving DecidableEq

-- ngx_event_expire_timers, where the handler of an event makes the given calls.
def expireTimers (handler : Ptr → List Call) : Nat → Timers → Option (List Fired × Timers)
  | 0, _ => none
  | n + 1, σ => do
      match ← turn fuel s σ with
      | none => return ([], σ)
      | some (ev, σ') =>
          let σ' ← (handler ev).foldlM (call fuel s) σ'
          let (fired, σ') ← expireTimers handler n σ'
          return (⟨ev, σ.key ev, σ.asked ev⟩ :: fired, σ')

end Calls

open LinkedTree LinkedTree.Linked Rbtree SerialOrder

-- Half of the key range.
def half : Nat := 2 ^ 63

theorem minus_eq (a b : Nat) : minus a b = diff half a b := by
  rw [minus, toInt64, toInt64, toInt64, Int.bmod_sub_bmod, Int.sub_bmod_bmod]
  rfl

-- The current time and the keys of the pending events lie in one half of the key range.
def Windowed (σ : Timers) : Prop :=
  ∃ b : Int, Within half b σ.now ∧ ∀ ev, σ.timerSet ev = true → Within half b (σ.key ev)

-- The event pending with a new key.
def Timers.armed (σ : Timers) (ev : Ptr) (key : Nat) : Timers :=
  { σ with key := Function.update σ.key ev key, timerSet := Function.update σ.timerSet ev true }

-- The tree holds the pending events, in the order of the signed differences of their keys.
structure Sound (s : Ptr) (evs : List Ptr) (σ : Timers) (t : Linked Bool) : Prop where
  valid : Valid s σ.nodes t
  pending : ∀ ev, σ.timerSet ev = true ↔ ev ∈ t.toList
  known : ∀ ev ∈ t.toList, ev ∈ evs
  sorted : t.toList.Pairwise fun p q => 0 ≤ minus (σ.key q) (σ.key p)
  windowed : Windowed σ

variable {s : Ptr} {evs : List Ptr} {σ : Timers} {t : Linked Bool}

theorem half_pos : 0 < half := by decide

theorem Sound.length (h : Sound s evs σ t) : t.toList.length ≤ evs.length :=
  (List.subperm_of_subset h.valid.distinct.nodup h.known).length_le

-- A window with fewer events, or with what stays of them.
theorem Windowed.mono {σ' : Timers} (h : Windowed σ) (hnow : σ'.now = σ.now)
    (hkey : ∀ ev, σ'.timerSet ev = true → σ.timerSet ev = true ∧ σ'.key ev = σ.key ev) :
    Windowed σ' := by
  obtain ⟨b, hb, hkeys⟩ := h
  refine ⟨b, hnow ▸ hb, fun ev hev => ?_⟩
  obtain ⟨hset, heq⟩ := hkey ev hev
  exact heq ▸ hkeys ev hset

theorem timerInit_sound (hs : s ≠ 0) (σ : Timers) : Sound s evs (timerInit s σ) nil := by
  have hfocus : Focus (timerInit s σ).nodes s [] (nil : Linked Bool) := ⟨rfl, trivial, fun _ => trivial⟩
  have hdist : Distinct s (nil : Linked Bool) := ⟨by simp, by simp, by simp⟩
  refine ⟨⟨hfocus, hdist, ⟨rfl, trivial, 0, rfl⟩, by simp [timerInit], hs⟩, ?_, by simp, by simp, ?_⟩
  · simp [timerInit]
  · refine ⟨σ.now, ?_, nofun⟩
    simp only [timerInit, Within, offset, Int.sub_self, Int.zero_emod]
    decide

theorem delTimer_sound (h : Sound s evs σ t) (fuel : Nat) (ev : Ptr) (hev : σ.timerSet ev = true)
    (hfuel : evs.length < fuel) :
    ∃ H t', delTimer fuel s σ ev = some { σ with
        nodes := H
        key := Function.update σ.key ev 0
        timerSet := Function.update σ.timerSet ev false } ∧
      Sound s evs { σ with
        nodes := H
        key := Function.update σ.key ev 0
        timerSet := Function.update σ.timerSet ev false } t' := by
  have hmem := (h.pending ev).mp hev
  obtain ⟨H, t', ls, rs, hrun, hvalid, hlist, hlist', -⟩ :=
    delete_spec fuel h.valid hmem (Nat.lt_of_le_of_lt h.length hfuel)
  have hnodup := h.valid.distinct.nodup
  rw [hlist, List.nodup_middle, List.nodup_cons, ← hlist'] at hnodup
  have hne : ∀ p ∈ t'.toList, p ≠ ev := by
    rintro p hp rfl
    exact hnodup.1 hp
  have hsub : t'.toList.Sublist t.toList := by
    rw [hlist, hlist']
    exact (List.sublist_cons_self ev rs).append_left ls
  refine ⟨H, t', by simp [delTimer, hrun], hvalid, fun p => ?_, fun p hp => h.known p (hsub.subset hp), ?_, ?_⟩
  · by_cases hp : p = ev
    · subst hp
      simpa using hnodup.1
    · simp only [Function.update_of_ne hp, h.pending p, hlist, hlist']
      simp [hp]
  · refine (h.sorted.sublist hsub).imp_of_mem fun hp hq hle => ?_
    simp only [Function.update_of_ne (hne _ hp), Function.update_of_ne (hne _ hq)]
    exact hle
  · refine h.windowed.mono rfl fun p hp => ?_
    have hpe : p ≠ ev := by
      rintro rfl
      simp at hp
    simp only [Function.update_of_ne hpe, and_true] at hp ⊢
    exact hp

-- Where the keys lie in one half, the descent finds the place of the new key.
theorem insert_sound (h : Sound s evs σ t) (fuel : Nat) (ev : Ptr) (key : Nat) (hev : ev ∈ evs)
    (hevs : ev ≠ 0 ∧ ev ≠ s) (hnew : σ.timerSet ev = false) (hw : Windowed (σ.armed ev key))
    (hfuel : evs.length < fuel) :
    ∃ H t', insert (insertTimerValue (Function.update σ.key ev key)) fuel s σ.nodes ev = some H ∧
      Sound s evs { σ.armed ev key with nodes := H } t' := by
  have hmem : ev ∉ t.toList := fun hin => by
    rw [(h.pending ev).mpr hin] at hnew
    cases hnew
  have hne : ∀ p ∈ t.toList, p ≠ ev := fun p hp heq => hmem (heq ▸ hp)
  obtain ⟨b, hnow, hkeys⟩ := hw
  have hself : Within half b key := by
    have hb := hkeys ev (by simp [Timers.armed])
    simpa [Timers.armed] using hb
  have hold : ∀ p ∈ t.toList, Within half b (σ.key p) := by
    intro p hp
    have hb := hkeys p (by simp [Timers.armed, hne p hp, (h.pending p).mpr hp])
    simpa [Timers.armed, hne p hp] using hb
  have hless : ∀ p ∈ t.toList,
      minus (Function.update σ.key ev key ev) (Function.update σ.key ev key p) = diff half key (σ.key p) := by
    intro p hp
    rw [Function.update_self, Function.update_of_ne (hne p hp), minus_eq]
  have hmono : t.toList.Pairwise fun q q' =>
      decide (minus (Function.update σ.key ev key ev) (Function.update σ.key ev key q) < 0) = true →
        decide (minus (Function.update σ.key ev key ev) (Function.update σ.key ev key q') < 0) = true := by
    refine h.sorted.imp_of_mem fun hq hq' hle hlt => ?_
    rw [decide_eq_true_eq, hless _ hq] at hlt
    rw [decide_eq_true_eq, hless _ hq']
    rw [minus_eq] at hle
    have htrans := diff_trans half_pos hself (hold _ hq) (hold _ hq')
    have hcomm := diff_comm half_pos (hold _ hq) (hold _ hq')
    omega
  obtain ⟨H, t', ls, rs, hrun, hvalid, hlist, hlist', hls, hrs, -⟩ :=
    insert_spec (insertTimerValue (Function.update σ.key ev key))
      (fun temp => minus (Function.update σ.key ev key ev) (Function.update σ.key ev key temp) < 0)
      fuel ev t rfl h.valid hmem hevs.2 hevs.1 hmono (Nat.lt_of_le_of_lt h.length hfuel)
  have hmeml : ∀ p ∈ ls, p ∈ t.toList := fun p hp => by simp [hlist, hp]
  have hmemr : ∀ p ∈ rs, p ∈ t.toList := fun p hp => by simp [hlist, hp]
  refine ⟨H, t', hrun, hvalid, fun p => ?_, fun p hp => ?_, ?_, b, hnow, hkeys⟩
  · by_cases hp : p = ev
    · subst hp
      simp [Timers.armed, hlist']
    · simp only [Timers.armed, Function.update_of_ne hp, h.pending p, hlist, hlist']
      simp [hp]
  · rw [hlist'] at hp
    rcases List.mem_append.mp hp with hp | hp
    · exact h.known p (hmeml p hp)
    · rcases List.mem_cons.mp hp with rfl | hp
      · exact hev
      · exact h.known p (hmemr p hp)
  · have hsorted := h.sorted
    rw [hlist] at hsorted
    obtain ⟨hl, hr, hlr⟩ := List.pairwise_append.mp hsorted
    have hsame : ∀ p q, p ∈ t.toList → q ∈ t.toList → 0 ≤ minus (σ.key q) (σ.key p) →
        0 ≤ minus (Function.update σ.key ev key q) (Function.update σ.key ev key p) := by
      intro p q hp hq hle
      rwa [Function.update_of_ne (hne p hp), Function.update_of_ne (hne q hq)]
    have hafter : ∀ q ∈ rs,
        0 ≤ minus (Function.update σ.key ev key q) (Function.update σ.key ev key ev) := by
      intro q hq
      have hlt := hrs q hq
      rw [decide_eq_true_eq, hless q (hmemr q hq)] at hlt
      rw [Function.update_self, Function.update_of_ne (hne q (hmemr q hq)), minus_eq,
        diff_comm half_pos (hold q (hmemr q hq)) hself]
      omega
    rw [hlist', List.pairwise_append, List.pairwise_cons]
    refine ⟨hl.imp_of_mem fun hp hq => hsame _ _ (hmeml _ hp) (hmeml _ hq),
      ⟨hafter, hr.imp_of_mem fun hp hq => hsame _ _ (hmemr _ hp) (hmemr _ hq)⟩, fun p hp q hq => ?_⟩
    rcases List.mem_cons.mp hq with rfl | hq
    · have hle := hls p hp
      rw [decide_eq_false_iff_not, Int.not_lt] at hle
      exact hle
    · exact hsame p q (hmeml p hp) (hmemr q hq) (hlr p hp q hq)

end Nginx.Timer
