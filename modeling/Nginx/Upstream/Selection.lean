import Nginx.Upstream.RoundRobin

namespace Nginx.RoundRobin

-- A peer the loops would break at.
def available (now : Int) (p : Peer) : Bool := !p.down && (inOrder p || recovered now p)

-- The weights that the configuration gives a primary peer: none exactly when it is down.
structure Weighted (p : Peer) : Prop where
  down : p.down = true → p.weight = 0 ∧ p.currentWeight ≤ 0
  up : p.down = false → 0 < p.weight

instance (p : Peer) : Decidable (Weighted p) :=
  decidable_of_iff ((p.down = true → p.weight = 0 ∧ p.currentWeight ≤ 0) ∧
    (p.down = false → 0 < p.weight)) ⟨fun h => ⟨h.1, h.2⟩, fun h => ⟨h.down, h.up⟩⟩

def positive (p : Peer) : Bool := 0 < p.currentWeight

def weighted (p : Peer) : Bool := 0 < p.weight

theorem positive_iff (p : Peer) : positive p = true ↔ 0 < p.currentWeight := decide_eq_true_iff

def zero (peer : List Peer) (n : Nat) : List Peer :=
  peer.modify n ({ · with currentWeight := 0 })

section Lists

variable {α : Type _} {β : Type _}

theorem map_modify_of_eq (l : List α) (n : Nat) (f : α → α) (g : α → β) (h : ∀ a, g (f a) = g a) :
    (l.modify n f).map g = l.map g := by
  apply List.ext_getElem?
  intro i
  rw [List.getElem?_map, List.getElem?_map, List.getElem?_modify]
  cases l[i]? with
  | none => rfl
  | some a =>
      by_cases hi : n = i
      · simp [hi, h]
      · simp [hi]

theorem forall_modify (l : List α) (n : Nat) (f : α → α) (P : α → Prop) (hf : ∀ a, P a → P (f a))
    (h : ∀ a ∈ l, P a) : ∀ a ∈ l.modify n f, P a := by
  intro a ha
  obtain ⟨i, hi⟩ := List.mem_iff_getElem?.mp ha
  rw [List.getElem?_modify] at hi
  obtain ⟨b, hb, rfl⟩ := Option.map_eq_some_iff.mp hi
  have hPb := h b (List.mem_of_getElem? hb)
  split
  · exact hf b hPb
  · exact hPb

theorem countP_modify (l : List α) (n : Nat) (f : α → α) (q : α → Bool) (a : α)
    (ha : l[n]? = some a) (hq : q a = true) (hf : q (f a) = false) :
    (l.modify n f).countP q + 1 = l.countP q := by
  induction l generalizing n with
  | nil => simp at ha
  | cons b l ih =>
      cases n with
      | zero =>
          simp only [List.getElem?_cons_zero, Option.some.injEq] at ha
          subst ha
          simp [hq, hf]
      | succ n =>
          have hrec := ih n (by simpa using ha)
          simp only [List.modify_succ_cons, List.countP_cons]
          omega

theorem mem_drop_of_getElem? (l : List α) (j n : Nat) (a : α) (ha : l[n]? = some a) (hn : j < n) :
    a ∈ l.drop (j + 1) := by
  apply List.mem_of_getElem? (i := n - (j + 1))
  rw [List.getElem?_drop, Nat.add_sub_cancel' hn]
  exact ha

theorem exists_last (l : List α) (q : α → Bool) (h : ∃ a ∈ l, q a = true) :
    ∃ j a, l[j]? = some a ∧ q a = true ∧ ∀ b ∈ l.drop (j + 1), q b = false := by
  induction l with
  | nil => simp at h
  | cons a l ih =>
      by_cases hl : ∃ b ∈ l, q b = true
      · obtain ⟨j, b, hb, hq, hlast⟩ := ih hl
        exact ⟨j + 1, b, by simpa using hb, hq, by simpa using hlast⟩
      · obtain ⟨b, hb, hq⟩ := h
        rcases List.mem_cons.mp hb with rfl | hmem
        · exact ⟨0, b, rfl, hq, by simpa using hl⟩
        · exact absurd ⟨b, hmem, hq⟩ hl

end Lists

theorem forall_zero (l : List Peer) (n : Nat) (P : Peer → Prop)
    (hP : ∀ p, P p → P { p with currentWeight := 0 }) (h : ∀ p ∈ l, P p) : ∀ p ∈ zero l n, P p :=
  forall_modify l n _ P hP h

theorem map_zero (l : List Peer) (n : Nat) {β : Type _} (g : Peer → β)
    (hg : ∀ p, g { p with currentWeight := 0 } = g p) : (zero l n).map g = l.map g :=
  map_modify_of_eq l n _ g hg

theorem countP_zero (l : List Peer) (n : Nat) (q : Peer) (hq : l[n]? = some q)
    (hpos : 0 < q.currentWeight) : (zero l n).countP positive + 1 = l.countP positive :=
  countP_modify l n _ positive q hq ((positive_iff q).mpr hpos) rfl

section Scan

theorem contest_candidate (candidate : Peer) (n : Nat) (l : List Peer) (i : Nat) :
    contest candidate n l i = n ∨
      ∃ k p, contest candidate n l i = i + k ∧ l[k]? = some p ∧ 0 < p.currentWeight := by
  induction l generalizing candidate n i with
  | nil => exact .inl rfl
  | cons p l ih =>
      unfold contest
      split
      · rcases ih candidate n (i + 1) with h | ⟨k, q, h, hq⟩
        · exact .inl h
        · exact .inr ⟨k + 1, q, by omega, by simpa using hq⟩
      · split
        · exact .inl rfl
        · rcases ih p i (i + 1) with h | ⟨k, q, h, hq⟩
          · exact .inr ⟨0, p, by omega, by simp; omega⟩
          · exact .inr ⟨k + 1, q, by omega, by simpa using hq⟩

theorem scan_none (l : List Peer) (i : Nat) (h : scan l i = none) : ∀ p ∈ l, p.currentWeight ≤ 0 := by
  induction l generalizing i with
  | nil => simp
  | cons p l ih =>
      unfold scan at h
      split at h
      · rename_i hp
        simpa [hp] using ih (i + 1) h
      · cases h

theorem scan_some (l : List Peer) (i n : Nat) (h : scan l i = some n) :
    ∃ k p, n = i + k ∧ l[k]? = some p ∧ 0 < p.currentWeight := by
  induction l generalizing i with
  | nil => cases h
  | cons p l ih =>
      unfold scan at h
      split at h
      · obtain ⟨k, q, hk, hq⟩ := ih (i + 1) h
        exact ⟨k + 1, q, by omega, by simpa using hq⟩
      · rename_i hp
        have hn := Option.some.inj h
        rcases contest_candidate p i l (i + 1) with h' | ⟨k, q, hk, hq⟩
        · exact ⟨0, p, by omega, by simp; omega⟩
        · exact ⟨k + 1, q, by omega, by simpa using hq⟩

-- Among peers whose current weight is their weight no ratio is above another, so the last wins.
def Level (l : List Peer) : Prop := ∀ p ∈ l, 0 < p.currentWeight → p.currentWeight = p.weight

theorem level_zero (l : List Peer) (n : Nat) (hl : Level l) : Level (zero l n) :=
  forall_zero l n (fun p => 0 < p.currentWeight → p.currentWeight = p.weight)
    (fun _ _ h => absurd h (Int.lt_irrefl 0)) hl

theorem contest_level (candidate : Peer) (n : Nat) (l : List Peer) (i : Nat) (hl : Level l)
    (hc : candidate.currentWeight = candidate.weight) :
    (contest candidate n l i = n ∧ ∀ p ∈ l, p.currentWeight ≤ 0) ∨
      ∃ k, contest candidate n l i = i + k ∧ ∀ p ∈ l.drop (k + 1), p.currentWeight ≤ 0 := by
  induction l generalizing candidate n i with
  | nil => exact .inl ⟨rfl, by simp⟩
  | cons p l ih =>
      have hl' : Level l := fun q hq => hl q (List.mem_cons_of_mem _ hq)
      unfold contest
      split
      · rename_i hp
        rcases ih candidate n (i + 1) hl' hc with ⟨h, hall⟩ | ⟨k, h, hall⟩
        · exact .inl ⟨h, by simpa [hp] using hall⟩
        · exact .inr ⟨k + 1, by omega, by simpa using hall⟩
      · rename_i hp
        have hpw := hl p List.mem_cons_self (by omega)
        have heven : ¬heavier candidate p = true := by simp [heavier, hc, hpw]
        rw [if_neg heven]
        rcases ih p i (i + 1) hl' hpw with ⟨h, hall⟩ | ⟨k, h, hall⟩
        · exact .inr ⟨0, by omega, by simpa using hall⟩
        · exact .inr ⟨k + 1, by omega, by simpa using hall⟩

theorem scan_level (l : List Peer) (i n : Nat) (hl : Level l) (h : scan l i = some n) :
    ∃ k, n = i + k ∧ ∀ p ∈ l.drop (k + 1), p.currentWeight ≤ 0 := by
  induction l generalizing i with
  | nil => cases h
  | cons p l ih =>
      have hl' : Level l := fun q hq => hl q (List.mem_cons_of_mem _ hq)
      unfold scan at h
      split at h
      · obtain ⟨k, hk, hall⟩ := ih (i + 1) hl' h
        exact ⟨k + 1, by omega, by simpa using hall⟩
      · rename_i hp
        have hn := Option.some.inj h
        rcases contest_level p i l (i + 1) hl' (hl p List.mem_cons_self (by omega)) with
          ⟨h', hall⟩ | ⟨k, h', hall⟩
        · exact ⟨0, by omega, by simpa using hall⟩
        · exact ⟨k + 1, by omega, by simpa using hall⟩

-- get_peer takes a peer with weight left when there is one.
theorem getPeer_positive (l : List Peer) (p : Peer) (hp : p ∈ l) (hw : 0 < p.currentWeight) :
    ∃ n q, getPeer l = (n, l) ∧ scan l 0 = some n ∧ l[n]? = some q ∧ 0 < q.currentWeight := by
  cases h : scan l 0 with
  | none =>
      have := scan_none l 0 h p hp
      omega
  | some n =>
      obtain ⟨k, q, hk, hq⟩ := scan_some l 0 n h
      obtain rfl : n = k := by omega
      exact ⟨n, q, by simp [getPeer, h], rfl, hq⟩

-- Without weight left it works on the restored weights.
theorem getPeer_exhausted (l : List Peer) (h : ∀ p ∈ l, p.currentWeight ≤ 0)
    (hr : ∃ p ∈ l, 0 < p.weight) : getPeer l = getPeer (reset l) := by
  have hnone : scan l 0 = none := by
    cases hs : scan l 0 with
    | none => rfl
    | some n =>
        obtain ⟨k, q, -, hq, hpos⟩ := scan_some l 0 n hs
        have := h q (List.mem_of_getElem? hq)
        omega
  obtain ⟨p, hp, hw⟩ := hr
  obtain ⟨n, q, hget, hs, -⟩ := getPeer_positive (reset l) { p with currentWeight := p.weight }
    (List.mem_map.mpr ⟨p, hp, rfl⟩) hw
  rw [hget]
  simp [getPeer, hnone, hs]

end Scan

section Loop

-- The bits of the first number peers can be read and are clear.
def Untried (tried : List (BitVec 64)) (number : Nat) : Prop :=
  ∀ c < number, tested tried c = some false

theorem inspect_available (now : Int) (s : Conn) (p : Peer) (ht : tested s.tried s.current = some false)
    (hp : s.peers.peer[s.current]? = some p) (ha : available now p = true) :
    ∃ s', inspect now s = some (true, s') ∧ s'.current = s.current ∧
      s'.peers.peer.length = s.peers.peer.length := by
  simp only [available, Bool.and_eq_true, Bool.not_eq_true', Bool.or_eq_true] at ha
  by_cases ho : inOrder p = true
  · exact ⟨s, by simp [inspect, ht, hp, ha.1, ho], rfl, rfl⟩
  · have hr : recovered now p = true := by simpa [ho] using ha.2
    refine ⟨{ s with peers := { s.peers with
      peer := s.peers.peer.modify s.current ({ · with fails := 0 }) } }, ?_, rfl, by simp⟩
    simp [inspect, ht, hp, ha.1, ho, hr]

-- A peer within its failure window loses its weight and costs a try.
theorem inspect_failing (now : Int) (s : Conn) (p : Peer) (ht : tested s.tried s.current = some false)
    (hp : s.peers.peer[s.current]? = some p) (hup : p.down = false) (ha : available now p = false) :
    inspect now s = some (false,
      { s with peers := { s.peers with peer := zero s.peers.peer s.current },
               tries := decr s.tries }) := by
  simp only [available, hup, Bool.not_false, Bool.true_and, Bool.or_eq_false_iff] at ha
  simp [inspect, ht, hp, hup, ha.1, ha.2, zero]

variable (now : Int)

-- The first try found a peer of the list that is available, or gave up.
def Found (l : List Peer) (out : Option (Bool × Conn)) : Prop :=
  ∃ s p, out = some (true, s) ∧ s.current < s.peers.peer.length ∧ l[s.current]? = some p ∧
    available now p = true

def Missed (out : Option (Bool × Conn)) : Prop := ∃ s, out = some (false, s)

theorem getElem?_available (l : List Peer) (c : Nat) :
    (∃ p, l[c]? = some p ∧ available now p = true) ↔ (l.map (available now))[c]? = some true := by
  simp

theorem unavailable_drop (l : List Peer) (j : Nat) :
    (∀ p ∈ l.drop j, available now p = false) ↔ true ∉ (l.map (available now)).drop j := by
  rw [← List.map_drop, List.mem_map, not_exists]
  simp only [not_and, Bool.not_eq_true]

theorem map_available_zero (l : List Peer) (n : Nat) :
    (zero l n).map (available now) = l.map (available now) :=
  map_zero l n _ fun _ => rfl

theorem map_available_reset (l : List Peer) :
    (reset l).map (available now) = l.map (available now) := by
  simp [reset, available, inOrder, recovered]

-- Whether a peer is available does not depend on the current weights.
theorem found_congr (l l' : List Peer) (out : Option (Bool × Conn))
    (h : l'.map (available now) = l.map (available now)) (hf : Found now l' out) : Found now l out := by
  obtain ⟨s, p, hout, hlt, hp⟩ := hf
  obtain ⟨q, hq⟩ := (getElem?_available now l s.current).mpr
    (h ▸ (getElem?_available now l' s.current).mp ⟨p, hp⟩)
  exact ⟨s, q, hout, hlt, hq⟩

-- The states in which the loop goes on: no usable bit is set and i equals pc->tries.
structure Searching (i : Nat) (s : Conn) : Prop where
  weighted : ∀ p ∈ s.peers.peer, Weighted p
  untried : Untried s.tried s.peers.peer.length
  tries : s.tries = i

-- The state after the loop met the peer n in its failure window.
def skip (s : Conn) (n : Nat) : Conn :=
  { s with current := n, peers := { s.peers with peer := zero s.peers.peer n },
           tries := decr s.tries }

theorem searching_skip (i n : Nat) (s : Conn) (hs : Searching (i + 1) s) : Searching i (skip s n) where
  weighted := forall_zero _ _ _
    (fun p hp => ⟨fun hd => ⟨(hp.down hd).1, Int.le_refl 0⟩, hp.up⟩) hs.weighted
  untried := by simpa [skip, zero] using hs.untried
  tries := by simp [skip, decr, hs.tries]

-- One round that picks the peer n.
theorem firstTry_round (i n : Nat) (s : Conn) (q : Peer) (hs : Searching (i + 1) s)
    (hget : getPeer s.peers.peer = (n, s.peers.peer)) (hq : s.peers.peer[n]? = some q)
    (hpos : 0 < q.currentWeight) :
    (available now q = true ∧ Found now s.peers.peer (firstTry now (i + 1) s)) ∨
      (available now q = false ∧ firstTry now (i + 1) s = firstTry now i (skip s n)) := by
  have hn : n < s.peers.peer.length := (List.getElem?_eq_some_iff.mp hq).1
  have ht := hs.untried n hn
  cases ha : available now q with
  | true =>
      obtain ⟨s', hin, hcur, hlen⟩ := inspect_available now { s with current := n } q ht hq ha
      refine .inl ⟨rfl, s', q, ?_, ?_, ?_, ha⟩
      · simp [firstTry, hget, hin]
      · simpa [hcur, hlen] using hn
      · simpa [hcur] using hq
  | false =>
      have hup : q.down = false := by
        cases hd : q.down with
        | false => rfl
        | true =>
            have := (hs.weighted q (List.mem_of_getElem? hq)).down hd
            omega
      have hin : inspect now { s with current := n } = some (false, skip s n) :=
        inspect_failing now { s with current := n } q ht hq hup ha
      have hround : firstTry now (i + 1) s =
          if (skip s n).tries = 0 then some (false, skip s n) else firstTry now i (skip s n) := by
        simp [firstTry, hget, hin]
      have htries := (searching_skip i n s hs).tries
      refine .inr ⟨rfl, ?_⟩
      rw [hround, htries]
      cases i with
      | zero => rfl
      | succ i => rfl

-- While an available peer has weight left it is reached before the tries run out.
theorem firstTry_positive (i : Nat) (s : Conn) (hs : Searching i s) (c : Nat) (p : Peer)
    (hp : s.peers.peer[c]? = some p) (ha : available now p = true) (hw : 0 < p.currentWeight)
    (hi : s.peers.peer.countP positive ≤ i) : Found now s.peers.peer (firstTry now i s) := by
  induction i generalizing s with
  | zero =>
      have hcount := List.countP_pos_iff.mpr ⟨p, List.mem_of_getElem? hp, (positive_iff p).mpr hw⟩
      omega
  | succ i ih =>
      obtain ⟨n, q, hget, -, hq, hpos⟩ := getPeer_positive _ p (List.mem_of_getElem? hp) hw
      rcases firstTry_round now i n s q hs hget hq hpos with ⟨-, hfound⟩ | ⟨hfail, hnext⟩
      · exact hfound
      · have hne : n ≠ c := by
          rintro rfl
          simp_all
        have hcount := countP_zero s.peers.peer n q hq hpos
        have hp' : (skip s n).peers.peer[c]? = some p := by simp [skip, zero, hne, hp]
        rw [hnext]
        exact found_congr now _ _ _ (map_available_zero now _ n)
          (ih (skip s n) (searching_skip i n s hs) hp' (by simp only [skip]; omega))

-- On restored weights the picks run from the end of the list down to the last available peer.
theorem firstTry_level (i : Nat) (s : Conn) (hs : Searching i s) (hl : Level s.peers.peer) (j : Nat)
    (p : Peer) (hp : s.peers.peer[j]? = some p) (ha : available now p = true)
    (hw : 0 < p.currentWeight) (hlast : ∀ q ∈ s.peers.peer.drop (j + 1), available now q = false) :
    ((s.peers.peer.drop (j + 1)).countP positive < i → Found now s.peers.peer (firstTry now i s)) ∧
      (i ≤ (s.peers.peer.drop (j + 1)).countP positive → Missed (firstTry now i s)) := by
  induction i generalizing s with
  | zero => exact ⟨fun h => by omega, fun _ => ⟨s, rfl⟩⟩
  | succ i ih =>
      obtain ⟨n, q, hget, hscan, hq, hpos⟩ := getPeer_positive _ p (List.mem_of_getElem? hp) hw
      obtain ⟨k, hk, hall⟩ := scan_level _ 0 n hl hscan
      rw [Nat.zero_add] at hk
      subst hk
      have hjn : j ≤ n := by
        by_contra hlt
        have := hall p (mem_drop_of_getElem? _ n j p hp (by omega))
        omega
      rcases firstTry_round now i n s q hs hget hq hpos with ⟨hav, hfound⟩ | ⟨hfail, hnext⟩
      · have hnj : n = j := by
          by_contra hne
          have hfail := hlast q (mem_drop_of_getElem? _ j n q hq (by omega))
          exact absurd (hav.symm.trans hfail) (by decide)
        subst hnj
        have hcount : (s.peers.peer.drop (n + 1)).countP positive = 0 := by
          rw [List.countP_eq_zero]
          intro r hr
          have := hall r hr
          simp [positive, this]
        exact ⟨fun _ => hfound, fun h => by omega⟩
      · have hne : n ≠ j := by
          rintro rfl
          simp_all
        have hdrop : (zero s.peers.peer n).drop (j + 1) =
            zero (s.peers.peer.drop (j + 1)) (n - (j + 1)) :=
          List.drop_modify_of_ge _ _ _ _ (by omega)
        have hq' : (s.peers.peer.drop (j + 1))[n - (j + 1)]? = some q := by
          rw [List.getElem?_drop, ← hq]
          congr 1
          omega
        have hcount := countP_zero _ (n - (j + 1)) q hq' hpos
        have hrec := ih (skip s n) (searching_skip i n s hs)
          (level_zero _ n hl)
          (by simp [skip, zero, hne, hp])
          (by
            rw [show (skip s n).peers.peer = zero s.peers.peer n from rfl, unavailable_drop,
              map_available_zero, ← unavailable_drop]
            exact hlast)
        simp only [skip, hdrop] at hrec
        rw [hnext]
        refine ⟨fun h => ?_, fun h => hrec.2 (by omega)⟩
        exact found_congr now _ _ _ (map_available_zero now _ n) (hrec.1 (by omega))

-- Without such a peer every weight left is spent first, then the weights are restored.
theorem firstTry_exhausted (i : Nat) (s : Conn) (hs : Searching i s)
    (hnone : ∀ q ∈ s.peers.peer, available now q = true → q.currentWeight ≤ 0) (j : Nat) (p : Peer)
    (hp : s.peers.peer[j]? = some p) (ha : available now p = true)
    (hlast : ∀ q ∈ s.peers.peer.drop (j + 1), available now q = false) :
    (s.peers.peer.countP positive + (s.peers.peer.drop (j + 1)).countP weighted < i →
        Found now s.peers.peer (firstTry now i s)) ∧
      (i ≤ s.peers.peer.countP positive + (s.peers.peer.drop (j + 1)).countP weighted →
        Missed (firstTry now i s)) := by
  induction i generalizing s p with
  | zero => exact ⟨fun h => by omega, fun _ => ⟨s, rfl⟩⟩
  | succ i ih =>
      by_cases hleft : ∃ q ∈ s.peers.peer, 0 < q.currentWeight
      · obtain ⟨q', hmem, hpos'⟩ := hleft
        obtain ⟨n, q, hget, -, hq, hpos⟩ := getPeer_positive _ q' hmem hpos'
        have hfail : available now q = false := by
          cases hav : available now q with
          | false => rfl
          | true =>
              have := hnone q (List.mem_of_getElem? hq) hav
              omega
        have hround := firstTry_round now i n s q hs hget hq hpos
        simp only [hfail, Bool.false_eq_true, false_and, true_and, false_or] at hround
        have hcount := countP_zero s.peers.peer n q hq hpos
        have hweights : ((zero s.peers.peer n).drop (j + 1)).countP weighted =
            (s.peers.peer.drop (j + 1)).countP weighted := by
          rw [show weighted = (fun w : Int => decide (0 < w)) ∘ Peer.weight from rfl,
            ← List.countP_map, ← List.countP_map, List.map_drop, List.map_drop,
            map_zero _ _ Peer.weight fun _ => rfl]
        have hpeers : (skip s n).peers.peer = zero s.peers.peer n := rfl
        obtain ⟨r, hr, har⟩ : ∃ r, (zero s.peers.peer n)[j]? = some r ∧ available now r = true := by
          rw [getElem?_available, map_available_zero, ← getElem?_available]
          exact ⟨p, hp, ha⟩
        have hrec := ih (skip s n) (searching_skip i n s hs)
          (forall_zero _ _ (fun q => available now q = true → q.currentWeight ≤ 0)
            (fun _ _ _ => Int.le_refl 0) hnone) r hr har
          (by
            rw [hpeers, unavailable_drop, map_available_zero, ← unavailable_drop]
            exact hlast)
        rw [hpeers, hweights] at hrec
        rw [hround]
        refine ⟨fun h => ?_, fun h => hrec.2 (by omega)⟩
        exact found_congr now _ _ _ (map_available_zero now _ n) (hrec.1 (by omega))
      · have hall : ∀ q ∈ s.peers.peer, q.currentWeight ≤ 0 := by
          intro q hq
          by_contra h
          exact hleft ⟨q, hq, by omega⟩
        have hup : p.down = false := by
          cases hd : p.down with
          | false => rfl
          | true => simp [available, hd] at ha
        have hpw := (hs.weighted p (List.mem_of_getElem? hp)).up hup
        have hget := getPeer_exhausted _ hall ⟨p, List.mem_of_getElem? hp, hpw⟩
        have hcount : s.peers.peer.countP positive = 0 := by
          rw [List.countP_eq_zero]
          intro q hq
          have := hall q hq
          simp [positive, this]
        let s' : Conn := { s with peers := { s.peers with peer := reset s.peers.peer } }
        have hsame : firstTry now (i + 1) s = firstTry now (i + 1) s' := by
          simp [firstTry, hget, s']
        have hs' : Searching (i + 1) s' := by
          refine ⟨?_, by simpa [s', reset] using hs.untried, hs.tries⟩
          intro q hq
          obtain ⟨r, hr, rfl⟩ := List.mem_map.mp hq
          have hw := hs.weighted r hr
          exact ⟨fun hd => ⟨(hw.down hd).1, (hw.down hd).1.le⟩, hw.up⟩
        have hdrop : (reset s.peers.peer).drop (j + 1) = reset (s.peers.peer.drop (j + 1)) := by
          simp [reset, List.map_drop]
        have hweights : (reset (s.peers.peer.drop (j + 1))).countP positive =
            (s.peers.peer.drop (j + 1)).countP weighted := by
          simp only [reset, List.countP_map]
          rfl
        have hlevel := firstTry_level now (i + 1) s' hs'
          (by
            intro q hq
            obtain ⟨r, -, rfl⟩ := List.mem_map.mp hq
            exact fun _ => rfl)
          j { p with currentWeight := p.weight } (by simp [s', reset, hp]) ha hpw
          (by
            rw [show s'.peers.peer = reset s.peers.peer from rfl, unavailable_drop,
              map_available_reset, ← unavailable_drop]
            exact hlast)
        rw [show s'.peers.peer = reset s.peers.peer from rfl, hdrop, hweights] at hlevel
        rw [hsame, hcount, Nat.zero_add]
        refine ⟨fun h => ?_, hlevel.2⟩
        exact found_congr now _ _ _ (map_available_reset now _) (hlevel.1 h)

end Loop

-- An array that init_round_robin leaves without a backup list.
structure Configured (peers : Peers) : Prop where
  single : peers.single = decide (peers.peer.length = 1)
  lastCached : peers.lastCached = 0
  weighted : ∀ p ∈ peers.peer, Weighted p

-- The first try of a request: no bit is set and every try is left.
structure FirstTry (r : Request) : Prop where
  onBackup : r.onBackup = false
  backup : r.backup = none
  tries : r.tries = r.primary.peer.length
  untried : Untried r.tried r.primary.peer.length

-- A live peer is in service, and max_fails is 0 or not reached.
def live (p : Peer) : Bool := !p.down && inOrder p

-- The call returns NGX_OK with a peer that is not down and not within its failure window.
def Picks (now : Int) (r : Request) : Prop :=
  ∃ r' p, getRoundRobinPeer now r = some (.ok, r') ∧ r.primary.peer[r'.current]? = some p ∧
    available now p = true

-- Either an available peer has weight left, or the rounds spent on the weights left and, once
-- restored, on the peers behind the last available one leave a try for it.
def Reaches (now : Int) (l : List Peer) : Prop :=
  (∃ p ∈ l, available now p = true ∧ 0 < p.currentWeight) ∨
    ∃ j p, l[j]? = some p ∧ available now p = true ∧
      (∀ q ∈ l.drop (j + 1), available now q = false) ∧
      l.countP positive + (l.drop (j + 1)).countP weighted < l.length

theorem available_of_live (now : Int) (p : Peer) (h : live p = true) : available now p = true := by
  simp only [live, Bool.and_eq_true] at h
  simp [available, h.1, h.2]

theorem untried_replicate (n number : Nat) (h : number ≤ 64 * n) :
    Untried (List.replicate n 0) number := by
  intro c hc
  have hlt : c / 64 < n := by omega
  simp [tested, hlt]

theorem words_enough (n m : Nat) (h : n ≤ m) : n ≤ 64 * words m := by
  unfold words
  split <;> omega

theorem firstTry_init (peers : Peers) : FirstTry (initRoundRobinPeer peers none) where
  onBackup := rfl
  backup := rfl
  tries := rfl
  untried := untried_replicate _ _ (words_enough _ _ (Nat.le_max_left _ _))

section Call

variable (now : Int) (r : Request)

def conn : Conn := ⟨r.primary, r.current, r.tried, r.tries⟩

theorem searching_conn (hp : Configured r.primary) (hr : FirstTry r) :
    Searching r.primary.peer.length (conn r) :=
  ⟨hp.weighted, hr.untried, hr.tries⟩

theorem select_conn (hp : Configured r.primary) (h2 : 2 ≤ r.primary.peer.length) (hr : FirstTry r) :
    select now (conn r) =
      (firstTry now r.primary.peer.length (conn r)).bind fun (found, s) =>
        if found then (take s).map (true, ·) else some (false, s) := by
  have hsingle : r.primary.single = false := by
    rw [hp.single]
    simp
    omega
  have hrounds : rounds r.primary.peer.length = r.primary.peer.length := by
    unfold rounds
    rw [if_neg (by omega)]
  simp only [select, conn, hsingle, hr.tries, hrounds, if_true, Bool.false_eq_true, if_false]
  congr 1
  funext ⟨found, s⟩
  cases found <;> cases take s <;> simp

theorem picks_of_found (hp : Configured r.primary) (h2 : 2 ≤ r.primary.peer.length) (hr : FirstTry r)
    (hf : Found now r.primary.peer (firstTry now r.primary.peer.length (conn r))) : Picks now r := by
  obtain ⟨s, p, hout, hlt, hget, hav⟩ := hf
  obtain ⟨s', htake, hcur⟩ : ∃ s', take s = some s' ∧ s'.current = s.current := by
    simp [take, List.getElem?_eq_getElem hlt]
  have hsel := select_conn now r hp h2 hr
  rw [hout] at hsel
  refine ⟨r.store s', p, ?_, by simpa [Request.store, hcur] using hget, hav⟩
  simp only [conn] at hsel
  simp [getRoundRobinPeer, attempt, hr.onBackup, hr.backup, hp.lastCached, hsel, htake]

theorem not_picks_of_missed (hp : Configured r.primary) (h2 : 2 ≤ r.primary.peer.length)
    (hr : FirstTry r) (hm : Missed (firstTry now r.primary.peer.length (conn r))) : ¬Picks now r := by
  obtain ⟨s, hout⟩ := hm
  have hsel := select_conn now r hp h2 hr
  rw [hout] at hsel
  simp only [conn] at hsel
  rintro ⟨r', p, hget, -⟩
  simp [getRoundRobinPeer, attempt, hr.onBackup, hr.backup, hp.lastCached, hsel, Request.store] at hget

theorem get_picks_iff (hp : Configured r.primary) (h2 : 2 ≤ r.primary.peer.length) (hr : FirstTry r)
    (hlive : ∃ p ∈ r.primary.peer, live p = true) : Picks now r ↔ Reaches now r.primary.peer := by
  have hs := searching_conn r hp hr
  by_cases hpos : ∃ p ∈ r.primary.peer, available now p = true ∧ 0 < p.currentWeight
  · refine iff_of_true ?_ (.inl hpos)
    obtain ⟨p, hmem, hav, hw⟩ := hpos
    obtain ⟨c, hc⟩ := List.mem_iff_getElem?.mp hmem
    exact picks_of_found now r hp h2 hr
      (firstTry_positive now _ (conn r) hs c p hc hav hw List.countP_le_length)
  · have hnone : ∀ q ∈ r.primary.peer, available now q = true → q.currentWeight ≤ 0 := by
      intro q hq hav
      by_contra hw
      exact hpos ⟨q, hq, hav, by omega⟩
    have hex := fun j p => firstTry_exhausted now _ (conn r) hs hnone j p
    constructor
    · intro hpicks
      obtain ⟨q, hq, hlq⟩ := hlive
      obtain ⟨j, p, hj, hav, hlast⟩ :=
        exists_last r.primary.peer (available now) ⟨q, hq, available_of_live now q hlq⟩
      refine .inr ⟨j, p, hj, hav, hlast, ?_⟩
      by_contra hle
      exact not_picks_of_missed now r hp h2 hr ((hex j p hj hav hlast).2 (Nat.le_of_not_lt hle)) hpicks
    · rintro (h | ⟨j, p, hj, hav, hlast, hlt⟩)
      · exact absurd h hpos
      · exact picks_of_found now r hp h2 hr ((hex j p hj hav hlast).1 hlt)

end Call

def freshPeer (weight : Int) (maxFails : Nat) : Peer := ⟨weight, weight, 0, 0, maxFails, 10, false⟩

theorem get_picks_iff_fresh :
    let peers : Peers := ⟨false, 0, [freshPeer 2 2, freshPeer 2 3]⟩
    Picks 1 (initRoundRobinPeer peers none) ↔ Reaches 1 peers.peer :=
  get_picks_iff 1 (initRoundRobinPeer ⟨false, 0, [freshPeer 2 2, freshPeer 2 3]⟩ none)
    ⟨rfl, rfl, by decide⟩ (by decide) (firstTry_init _) (by decide)

-- One request with a single connection, failed or not.
def serve (now : Int) (peers : Peers) (fail : Bool) : Option Peers := do
  let (_, r) ← getRoundRobinPeer now (initRoundRobinPeer peers none)
  let r ← freeRoundRobinPeer now fail (!fail) r
  return r.primary

-- Six requests leave the weights (0, 1): the second peer is in its failure window, the first is
-- live. The next request spends one try on the weight left, restores the weights, and spends the
-- other try on the second peer again.
theorem live_peer_not_picked :
    ∃ peers, [true, false, true, false, true, true].foldlM (serve 1)
        ⟨false, 0, [freshPeer 2 2, freshPeer 2 3]⟩ = some peers ∧
      (∃ p ∈ peers.peer, live p = true) ∧
      (∃ r, getRoundRobinPeer 1 (initRoundRobinPeer peers none) = some (.busy, r)) ∧
      ¬Picks 1 (initRoundRobinPeer peers none) := by
  let peers : Peers := ⟨false, 0, [⟨0, 2, 1, 1, 2, 10, false⟩, ⟨1, 2, 3, 1, 3, 10, false⟩]⟩
  have hrc : (getRoundRobinPeer 1 (initRoundRobinPeer peers none)).map Prod.fst = some .busy := by
    decide
  have hbusy : ∃ r, getRoundRobinPeer 1 (initRoundRobinPeer peers none) = some (.busy, r) := by
    obtain ⟨⟨rc, r⟩, hr, rfl⟩ := Option.map_eq_some_iff.mp hrc
    exact ⟨r, hr⟩
  refine ⟨peers, by decide, by decide, hbusy, ?_⟩
  rintro ⟨r', p, hget, -⟩
  obtain ⟨r, hr⟩ := hbusy
  rw [hget] at hr
  cases hr

end Nginx.RoundRobin
