import Nginx.Library.PeriodicCount
import Nginx.Upstream.Selection

namespace Nginx.RoundRobin

open PeriodicCount

-- One first try: get_peer, and the weight that the selection takes.
def draw (l : List Peer) : List Peer :=
  (getPeer l).2.modify (getPeer l).1 fun p => { p with currentWeight := p.currentWeight - 1 }

def currentOf (l : List Peer) (i : Nat) : Int := ((l[i]?).map Peer.currentWeight).getD 0

def totalCurrent (l : List Peer) : Int := (l.map Peer.currentWeight).sum

theorem reset_draw (l : List Peer) : reset (draw l) = reset l := by
  have hget : reset (getPeer l).2 = reset l := by
    rw [getPeer]
    cases scan l 0 with
    | some n => rfl
    | none => simp [reset]
  rw [← hget, draw, reset, reset]
  apply map_modify_of_eq
  intro p
  rfl

theorem totalCurrent_modify (l : List Peer) (n : Nat) (p : Peer) (h : l[n]? = some p) :
    totalCurrent (l.modify n fun p => { p with currentWeight := p.currentWeight - 1 }) = totalCurrent l - 1 := by
  induction l generalizing n with
  | nil => simp at h
  | cons q l ih =>
      cases n with
      | zero =>
          simp only [totalCurrent, List.modify_zero_cons, List.map_cons, List.sum_cons]
          omega
      | succ n =>
          have hrest := ih n (by simpa using h)
          simp only [totalCurrent, List.modify_succ_cons, List.map_cons, List.sum_cons] at hrest ⊢
          omega

-- Nothing is left exactly when all weights are used up.
theorem exists_positive (l : List Peer) (h0 : ∀ p ∈ l, 0 ≤ p.currentWeight) (h : 0 < totalCurrent l) :
    ∃ p ∈ l, 0 < p.currentWeight := by
  induction l with
  | nil => simp [totalCurrent] at h
  | cons p l ih =>
      by_cases hp : 0 < p.currentWeight
      · exact ⟨p, List.mem_cons_self, hp⟩
      · have hrest : 0 < totalCurrent l := by
          simp only [totalCurrent, List.map_cons, List.sum_cons] at h ⊢
          omega
        obtain ⟨q, hq, hpos⟩ := ih (fun q hq => h0 q (List.mem_cons_of_mem _ hq)) hrest
        exact ⟨q, List.mem_cons_of_mem _ hq, hpos⟩

theorem all_zero (l : List Peer) (h0 : ∀ p ∈ l, 0 ≤ p.currentWeight) (h : totalCurrent l = 0) :
    ∀ p ∈ l, p.currentWeight = 0 := by
  induction l with
  | nil => simp
  | cons p l ih =>
      have hl : 0 ≤ totalCurrent l := by
        apply List.sum_nonneg
        intro w hw
        obtain ⟨q, hq, rfl⟩ := List.mem_map.mp hw
        exact h0 q (List.mem_cons_of_mem _ hq)
      have hp := h0 p List.mem_cons_self
      rw [totalCurrent, List.map_cons, List.sum_cons] at h
      rw [totalCurrent] at hl ih
      refine List.forall_mem_cons.mpr ⟨?_, ih (fun q hq => h0 q (List.mem_cons_of_mem _ hq)) ?_⟩
      · omega
      · omega

-- A draw while weights are left takes one from a peer that has some.
theorem draw_positive (l : List Peer) (h0 : ∀ p ∈ l, 0 ≤ p.currentWeight) (h : 0 < totalCurrent l) :
    (∀ p ∈ draw l, 0 ≤ p.currentWeight) ∧ totalCurrent (draw l) = totalCurrent l - 1 ∧
      ∀ i, currentOf (draw l) i = currentOf l i - if (getPeer l).1 = i then 1 else 0 := by
  obtain ⟨p, hp, hpos⟩ := exists_positive l h0 h
  obtain ⟨n, q, hget, _, hq, hqpos⟩ := getPeer_positive l p hp hpos
  rw [draw, hget]
  refine ⟨?_, totalCurrent_modify l n q hq, fun i => ?_⟩
  · intro p hp
    obtain ⟨k, hk⟩ := List.mem_iff_getElem?.mp hp
    rw [List.getElem?_modify] at hk
    obtain ⟨a, ha, rfl⟩ := Option.map_eq_some_iff.mp hk
    by_cases hkn : n = k
    · subst hkn
      rw [hq] at ha
      cases ha
      rw [if_pos rfl]
      show 0 ≤ q.currentWeight - 1
      omega
    · rw [if_neg hkn]
      exact h0 a (List.mem_of_getElem? ha)
  · rw [currentOf, currentOf, List.getElem?_modify]
    by_cases hi : n = i
    · subst hi
      simp [hq]
    · simp [hi]

-- The state before the k-th selection, and the peer it chooses.
def drawn (l : List Peer) (k : Nat) : List Peer := draw^[k] l

def pick (l : List Peer) (k : Nat) : Nat := (getPeer (drawn l k)).1

theorem drawn_succ (l : List Peer) (k : Nat) : drawn l (k + 1) = draw (drawn l k) :=
  Function.iterate_succ_apply' draw k l

theorem reset_drawn (l : List Peer) (k : Nat) : reset (drawn l k) = reset l := by
  induction k with
  | zero => rfl
  | succ k ih => rw [drawn_succ, reset_draw, ih]

-- As long as the weights last, what a peer has lost is how often it was chosen.
theorem drawn_spends (l : List Peer) (h0 : ∀ p ∈ l, 0 ≤ p.currentWeight) (k : Nat) (hk : (k : Int) ≤ totalCurrent l) :
    (∀ p ∈ drawn l k, 0 ≤ p.currentWeight) ∧ totalCurrent (drawn l k) = totalCurrent l - k ∧
      ∀ i, (((List.range k).map (pick l)).count i : Int) + currentOf (drawn l k) i = currentOf l i := by
  induction k with
  | zero => exact ⟨h0, by simp [drawn], fun i => by simp [drawn]⟩
  | succ k ih =>
      obtain ⟨hnonneg, htotal, hcount⟩ := ih (by omega)
      obtain ⟨hnonneg', htotal', hcount'⟩ := draw_positive (drawn l k) hnonneg (by omega)
      rw [drawn_succ]
      refine ⟨hnonneg', by omega, fun i => ?_⟩
      have hi := hcount i
      have hi' := hcount' i
      rw [List.range_succ, List.map_append, List.count_append, List.map_singleton, List.count_singleton, pick]
      by_cases h : (getPeer (drawn l k)).1 = i <;> simp [h] at hi' ⊢ <;> omega

-- A block that starts on full weights ends with none left, and gives each peer its weight.
theorem drawn_block (l : List Peer) (hfull : ∀ p ∈ l, p.currentWeight = p.weight) (hw : ∀ p ∈ l, 0 < p.weight)
    (n : Nat) (hn : (n : Int) = totalCurrent l) :
    (∀ p ∈ drawn l n, p.currentWeight = 0) ∧ ∀ i, (((List.range n).map (pick l)).count i : Int) = currentOf l i := by
  have h0 : ∀ p ∈ l, 0 ≤ p.currentWeight := by
    intro p hp
    rw [hfull p hp]
    exact Int.le_of_lt (hw p hp)
  obtain ⟨hnonneg, htotal, hcount⟩ := drawn_spends l h0 n (by omega)
  have hzero := all_zero (drawn l n) hnonneg (by omega)
  refine ⟨hzero, fun i => ?_⟩
  have hi := hcount i
  have hcur : currentOf (drawn l n) i = 0 := by
    rw [currentOf]
    cases hp : (drawn l n)[i]? with
    | none => rfl
    | some p => exact hzero p (List.mem_of_getElem? hp)
  omega

theorem reset_full (l : List Peer) (hfull : ∀ p ∈ l, p.currentWeight = p.weight) : reset l = l := by
  conv => rhs; rw [← List.map_id l]
  apply List.map_congr_left
  intro p hp
  exact congrArg (fun w => { p with currentWeight := w }) (hfull p hp).symm

theorem draw_congr (l l' : List Peer) (h : getPeer l = getPeer l') : draw l = draw l' := by
  rw [draw, draw, h]

-- With the weights used up the next selection is the first one again.
theorem pick_periodic (l : List Peer) (hne : l ≠ []) (hfull : ∀ p ∈ l, p.currentWeight = p.weight)
    (hw : ∀ p ∈ l, 0 < p.weight) (n : Nat) (hn : (n : Int) = totalCurrent l) (k : Nat) : pick l (k + n) = pick l k := by
  obtain ⟨hzero, _⟩ := drawn_block l hfull hw n hn
  have hreset := reset_drawn l n
  obtain ⟨p, hp⟩ := List.exists_mem_of_ne_nil _ hne
  have hsame : getPeer (drawn l n) = getPeer l := by
    rw [getPeer_exhausted (drawn l n) (fun q hq => Int.le_of_eq (hzero q hq)), hreset, reset_full l hfull]
    have hmem : { p with currentWeight := p.weight } ∈ reset (drawn l n) := by
      rw [hreset]
      exact List.mem_map.mpr ⟨p, hp, rfl⟩
    obtain ⟨q, hq, heq⟩ := List.mem_map.mp hmem
    refine ⟨q, hq, ?_⟩
    have hweight : q.weight = p.weight := (Peer.mk.inj heq).2.1
    rw [hweight]
    exact hw p hp
  exact congrArg Prod.fst (shown_periodic draw getPeer draw_congr l n hsame k)

-- The request that a selection serves is a new one each time; what stays is the array.
def selectFirst (now : Int) (peers : Peers) (backup : Option Peers) : Option (Nat × Peers) := do
  let (rc, r) ← getRoundRobinPeer now (initRoundRobinPeer peers backup)
  if rc = .ok then some (r.current, r.primary) else none

-- The peers that k selections in a row choose, at the times that now gives.
def selections (now : Nat → Int) (backup : Option Peers) : Nat → Peers → Option (List Nat × Peers)
  | 0, peers => some ([], peers)
  | k + 1, peers => do
      let (chosen, peers) ← selections now backup k peers
      let (n, peers) ← selectFirst (now k) peers backup
      some (chosen ++ [n], peers)

-- All peers are up and have no failure that counts.
structure Steady (peers : Peers) : Prop where
  single : peers.single = false
  lastCached : peers.lastCached = 0
  several : 2 ≤ peers.peer.length
  live : ∀ p ∈ peers.peer, live p = true
  weighted : ∀ p ∈ peers.peer, 0 < p.weight

-- get_peer chooses a peer of the array, whose weights it may have restored.
theorem getPeer_chooses (l : List Peer) (hne : l ≠ []) (hw : ∀ p ∈ l, 0 < p.weight) :
    ((getPeer l).2 = l ∨ (getPeer l).2 = reset l) ∧ ∃ p, (getPeer l).2[(getPeer l).1]? = some p := by
  by_cases hpos : ∃ p ∈ l, 0 < p.currentWeight
  · obtain ⟨p, hp, hcur⟩ := hpos
    obtain ⟨n, q, hget, _, hq, _⟩ := getPeer_positive l p hp hcur
    rw [hget]
    exact ⟨.inl rfl, q, hq⟩
  · obtain ⟨p, hp⟩ := List.exists_mem_of_ne_nil _ hne
    have hall : ∀ q ∈ l, q.currentWeight ≤ 0 := by
      intro q hq
      apply Int.not_lt.mp
      intro h
      exact hpos ⟨q, hq, h⟩
    obtain ⟨n, q, hget, _, hq, _⟩ := getPeer_positive (reset l) { p with currentWeight := p.weight }
      (List.mem_map.mpr ⟨p, hp, rfl⟩) (hw p hp)
    rw [getPeer_exhausted l hall ⟨p, hp, hw p hp⟩, hget]
    exact ⟨.inr rfl, q, hq⟩

theorem live_reset (l : List Peer) (h : ∀ p ∈ l, live p = true) : ∀ p ∈ reset l, live p = true := by
  intro p hp
  obtain ⟨q, hq, rfl⟩ := List.mem_map.mp hp
  exact h q hq

theorem live_restored (peers : Peers) (h : Steady peers) : ∀ p ∈ (getPeer peers.peer).2, live p = true := by
  have hne : peers.peer ≠ [] := List.ne_nil_of_length_pos (by have := h.several; omega)
  obtain ⟨hl, _⟩ := getPeer_chooses peers.peer hne h.weighted
  cases hl with
  | inl heq =>
      rw [heq]
      exact h.live
  | inr heq =>
      rw [heq]
      exact live_reset peers.peer h.live

theorem selectFirst_draw (now : Int) (peers : Peers) (backup : Option Peers) (h : Steady peers) :
    selectFirst now peers backup = some ((getPeer peers.peer).1, { peers with peer := draw peers.peer }) := by
  have h2 := h.several
  have hne : peers.peer ≠ [] := List.ne_nil_of_length_pos (by omega)
  obtain ⟨hl, p, hp⟩ := getPeer_chooses peers.peer hne h.weighted
  have hlive := live_restored peers h p (List.mem_of_getElem? hp)
  rw [live, Bool.and_eq_true, Bool.not_eq_true'] at hlive
  have hlen : (getPeer peers.peer).2.length = peers.peer.length := by
    obtain heq | heq := hl
    · rw [heq]
    · rw [heq, reset, List.length_map]
  have hlt : (getPeer peers.peer).1 < peers.peer.length := by
    rw [← hlen]
    exact (List.getElem?_eq_some_iff.mp hp).1
  have huntried := untried_replicate (words (max peers.peer.length ((backup.map (·.peer.length)).getD 0)))
    peers.peer.length (words_enough _ _ (Nat.le_max_left _ _)) _ hlt
  have hrounds : rounds peers.peer.length = peers.peer.length - 1 + 1 := by
    rw [rounds, if_neg (by omega)]
    omega
  generalize htried : List.replicate (words (max peers.peer.length ((backup.map (·.peer.length)).getD 0))) (0 : BitVec 64) = tried
    at huntried
  have hinspect : inspect now ⟨{ peers with peer := (getPeer peers.peer).2 }, (getPeer peers.peer).1, tried, peers.peer.length⟩
      = some (true, ⟨{ peers with peer := (getPeer peers.peer).2 }, (getPeer peers.peer).1, tried, peers.peer.length⟩) := by
    simp [inspect, huntried, hp, hlive.1, hlive.2]
  have hfirst : firstTry now (peers.peer.length - 1 + 1) ⟨peers, 0, tried, peers.peer.length⟩
      = some (true, ⟨{ peers with peer := (getPeer peers.peer).2 }, (getPeer peers.peer).1, tried, peers.peer.length⟩) := by
    simp only [firstTry]
    rw [hinspect]
    rfl
  have hselect : select now ⟨peers, 0, tried, peers.peer.length⟩ = some (true, ⟨{ peers with peer := draw peers.peer },
      (getPeer peers.peer).1, mark tried (getPeer peers.peer).1, peers.peer.length⟩) := by
    simp only [select, h.single, hrounds, hfirst, Bool.false_eq_true, if_false, if_true, Option.bind_eq_bind, Option.bind_some,
      take, hp]
    rfl
  have hone : peers.peer.length ≠ 1 := by omega
  have hattempt : attempt now backup ⟨peers, 0, tried, peers.peer.length⟩ = some (true, ⟨{ peers with peer := draw peers.peer },
      (getPeer peers.peer).1, mark tried (getPeer peers.peer).1, peers.peer.length⟩) := by
    cases backup with
    | none => simp [attempt, hselect]
    | some next => simp [attempt, hselect, hone]
  have hinit : initRoundRobinPeer peers backup = ⟨peers, backup, false, 0, tried, peers.peer.length⟩ := by
    rw [← htried]
    rfl
  simp [selectFirst, hinit, getRoundRobinPeer, h.lastCached, hattempt, Request.store]

theorem length_draw (l : List Peer) : (draw l).length = l.length := by
  have hmap := congrArg List.length (reset_draw l)
  rwa [reset, reset, List.length_map, List.length_map] at hmap

theorem steady_draw (peers : Peers) (h : Steady peers) : Steady { peers with peer := draw peers.peer } where
  single := h.single
  lastCached := h.lastCached
  several := by
    show 2 ≤ (draw peers.peer).length
    rw [length_draw]
    exact h.several
  live := by
    apply forall_modify
    · exact fun p hp => hp
    · exact live_restored peers h
  weighted := by
    intro p hp
    have hmem : { p with currentWeight := p.weight } ∈ reset peers.peer := by
      rw [← reset_draw]
      exact List.mem_map.mpr ⟨p, hp, rfl⟩
    obtain ⟨q, hq, heq⟩ := List.mem_map.mp hmem
    have hweight : q.weight = p.weight := (Peer.mk.inj heq).2.1
    rw [← hweight]
    exact h.weighted q hq

theorem steady_drawn (peers : Peers) (h : Steady peers) (k : Nat) :
    Steady { peers with peer := drawn peers.peer k } := by
  induction k with
  | zero => exact h
  | succ k ih =>
      rw [drawn_succ]
      exact steady_draw _ ih

theorem selections_picks (now : Nat → Int) (backup : Option Peers) (peers : Peers) (h : Steady peers) (k : Nat) :
    selections now backup k peers
      = some ((List.range k).map (pick peers.peer), { peers with peer := drawn peers.peer k }) := by
  induction k with
  | zero => rfl
  | succ k ih =>
      rw [selections, ih, Option.bind_eq_bind, Option.bind_some]
      simp only [selectFirst_draw (now k) _ backup (steady_drawn peers h k)]
      rw [List.range_succ, List.map_append, drawn_succ]
      rfl

-- The length of a block, and how often each peer is chosen in it, whatever selections come before.
theorem weighted_fairness (peers : Peers) (backup : Option Peers) (now : Nat → Int) (h : Steady peers)
    (hfull : ∀ p ∈ peers.peer, p.currentWeight = p.weight) (before n : Nat)
    (hn : (n : Int) = (peers.peer.map Peer.weight).sum) :
    ∃ chosen peers', selections now backup (before + n) peers = some (chosen, peers') ∧
      ∀ i p, peers.peer[i]? = some p → ((chosen.drop before).count i : Int) = p.weight := by
  have hne : peers.peer ≠ [] := List.ne_nil_of_length_pos (by have := h.several; omega)
  have htotal : (n : Int) = totalCurrent peers.peer := by
    rw [hn, totalCurrent]
    congr 1
    apply List.map_congr_left
    intro p hp
    exact (hfull p hp).symm
  refine ⟨_, _, selections_picks now backup peers h (before + n), fun i p hp => ?_⟩
  obtain ⟨_, hcount⟩ := drawn_block peers.peer hfull h.weighted n htotal
  rw [count_window (pick peers.peer) n (pick_periodic peers.peer hne hfull h.weighted n htotal), hcount i, currentOf, hp]
  exact hfull p (List.mem_of_getElem? hp)

-- Two peers of the weights 2 and 1, after four selections.
theorem weighted_fairness_pair :
    ∃ chosen peers', selections (fun _ => 0) none (4 + 3) ⟨false, 0, [freshPeer 2 0, freshPeer 1 0]⟩ = some (chosen, peers') ∧
      ∀ i p, [freshPeer 2 0, freshPeer 1 0][i]? = some p → ((chosen.drop 4).count i : Int) = p.weight :=
  weighted_fairness ⟨false, 0, [freshPeer 2 0, freshPeer 1 0]⟩ none (fun _ => 0)
    ⟨rfl, rfl, by decide, by decide, by decide⟩ (by decide) 4 3 (by decide)

end Nginx.RoundRobin
