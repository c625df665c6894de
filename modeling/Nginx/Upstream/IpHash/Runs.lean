import Nginx.Upstream.IpHash

namespace Nginx.RoundRobin

-- From a through the values of a list down to b. A step from 0 to 2^64 - 1 would lead up.
def Descends : Nat → List Nat → Nat → Prop
  | a, [], b => b = a
  | a, x :: l, b => x ≤ a ∧ Descends x l b

theorem Descends.append {a b c : Nat} {l l' : List Nat} (h : Descends a l b) (h' : Descends b l' c) :
    Descends a (l ++ l') c := by
  induction l generalizing a with
  | nil =>
      obtain rfl : b = a := h
      exact h'
  | cons x l ih => exact ⟨h.1, ih h.2⟩

theorem Descends.le {a b : Nat} {l : List Nat} (h : Descends a l b) : b ≤ a := by
  induction l generalizing a with
  | nil => exact Nat.le_of_eq h
  | cons x l ih => exact Nat.le_trans (ih h.2) h.1

-- A request on n peers without backups, its bitmap and position inside the list.
structure Fit (n : Nat) (r : Request) : Prop where
  onBackup : r.onBackup = false
  backup : r.backup = none
  shape : shape r.primary = (n, false, 0)
  bits : n ≤ 64 * r.tried.length
  current : r.current < n

theorem Fit.length {n : Nat} {r : Request} (h : Fit n r) : r.primary.peer.length = n :=
  congrArg Prod.fst h.shape

theorem Fit.single {n : Nat} {r : Request} (h : Fit n r) : r.primary.single = false :=
  congrArg (fun x => x.2.1) h.shape

theorem Fit.lastCached {n : Nat} {r : Request} (h : Fit n r) : r.primary.lastCached = 0 :=
  congrArg (fun x => x.2.2) h.shape

-- What a call leaves of a request: set bits, and the shape of its list.
structure After (n : Nat) (r r' : Request) : Prop where
  fit : Fit n r'
  tried : ∀ i, tested r.tried i = some true → tested r'.tried i = some true

theorem After.refl {n : Nat} {r : Request} (h : Fit n r) : After n r r := ⟨h, fun _ hi => hi⟩

theorem After.trans {n : Nat} {r r' r'' : Request} (h : After n r r') (h' : After n r' r'') :
    After n r r'' :=
  ⟨h'.fit, fun i hi => h'.tried i (h.tried i hi)⟩

-- The current peer of r' is not down in r, was not tried, and is marked in r'.
structure Gives (r r' : Request) : Prop where
  up : ∃ p, r.primary.peer[r'.current]? = some p ∧ p.down = false
  untried : tested r.tried r'.current ≠ some true
  marked : tested r'.tried r'.current = some true

section Walk

variable (now : Int) {n : Nat}

theorem probe_cases (p : Nat) (s : Conn) (hp : p < s.peers.peer.length)
    (hword : p / 64 < s.tried.length) :
    (tested s.tried p = some true ∧ probe now p s = some (false, s)) ∨
      (tested s.tried p = some false ∧
        probe now p s = some (false, { s with tried := mark s.tried p, tries := decr s.tries })) ∨
      (tested s.tried p = some false ∧ (∃ q, s.peers.peer[p]? = some q ∧ q.down = false) ∧
        ∃ peers, shape peers = shape s.peers ∧ probe now p s = some (true, { s with peers })) := by
  obtain ⟨bit, hbit⟩ := Option.isSome_iff_exists.mp ((tested_isSome s.tried p).mpr hword)
  cases bit with
  | true => exact .inl ⟨hbit, by simp [probe, hbit]⟩
  | false =>
      refine .inr ?_
      have hget := List.getElem?_eq_getElem hp
      by_cases hd : s.peers.peer[p].down = true
      · exact .inl ⟨hbit, by simp [probe, hbit, hget, hd]⟩
      · have hup : s.peers.peer[p].down = false := by simpa using hd
        by_cases ho : inOrder s.peers.peer[p] = true
        · exact .inr ⟨hbit, ⟨_, hget, hup⟩, s.peers, rfl, by simp [probe, hbit, hget, hup, ho]⟩
        · by_cases hr : recovered now s.peers.peer[p] = true
          · refine .inr ⟨hbit, ⟨_, hget, hup⟩,
              { s.peers with peer := s.peers.peer.modify p ({ · with fails := 0 }) }, ?_, ?_⟩
            · simp [shape]
            · simp [probe, hbit, hget, hup, ho, hr]
          · exact .inl ⟨hbit, by simp [probe, hbit, hget, hup, ho, hr]⟩

-- Every try is a peer without its bit.
structure Counted (n : Nat) (r : Request) : Prop where
  fit : Fit n r
  tries : r.tries = untried r.tried n

theorem Fit.word {r : Request} (h : Fit n r) {p : Nat} (hp : p < n) : p / 64 < r.tried.length := by
  have := h.bits
  omega

theorem store_conn {r : Request} (h : Fit n r) : r.store (conn r) = r := by
  obtain ⟨primary, backup, onBackup, current, tried, tries⟩ := r
  obtain rfl : onBackup = false := h.onBackup
  rfl

theorem turn_marked (hash : Nat) (s : IpHash) (h : Fit n s.rrp)
    (htried : tested s.rrp.tried (nextHash s.addr hash % n) = some true) :
    turn now hash s = some (nextHash s.addr hash, false, { s with tries := (s.tries + 1) % 256 }) := by
  have hpeers : s.rrp.peers = some s.rrp.primary := by simp [Request.peers, h.onBackup]
  have hprobe : probe now (nextHash s.addr hash % n) (conn s.rrp) = some (false, conn s.rrp) := by
    simp only [conn] at htried ⊢
    simp [probe, htried]
  simp only [conn] at hprobe
  simp only [turn, hpeers, h.length, hprobe, Option.pure_def, Option.bind_eq_bind, Option.bind_some,
    Bool.false_eq_true, if_false]
  rw [show s.rrp.store ⟨s.rrp.primary, s.rrp.current, s.rrp.tried, s.rrp.tries⟩ = s.rrp from
    store_conn h]

-- The peer of the turn is marked behind it, whether it is taken or not.
theorem turn_cases (hash : Nat) (s : IpHash) (h : Counted n s.rrp) :
    ∃ r found, let p := nextHash s.addr hash % n
      turn now hash s = some (nextHash s.addr hash, found,
        if found then { s with rrp := r, hash := nextHash s.addr hash }
        else { s with rrp := r, tries := (s.tries + 1) % 256 }) ∧
      After n s.rrp r ∧ r.tries ≤ s.rrp.tries ∧ tested r.tried p = some true ∧
      if found then r.tries = untried r.tried n + 1 ∧ Gives s.rrp r
      else r.tries = untried r.tried n ∧ r.primary = s.rrp.primary := by
  have hn : 0 < n := by have := h.fit.current; omega
  have hp := Nat.mod_lt (nextHash s.addr hash) hn
  generalize hpeq : nextHash s.addr hash % n = p at hp ⊢
  have hword := h.fit.word hp
  have hpeers : s.rrp.peers = some s.rrp.primary := by simp [Request.peers, h.fit.onBackup]
  have hturn := probe_cases now p (conn s.rrp) (by rw [← h.fit.length] at hp; exact hp) hword
  simp only [conn] at hturn
  rcases hturn with ⟨htried, hprobe⟩ | ⟨hfree, hprobe⟩ | ⟨hfree, hup, peers, hshape, hprobe⟩
  · exact ⟨s.rrp, false, turn_marked now hash s h.fit (hpeq.symm ▸ htried), After.refl h.fit,
      Nat.le_refl _, htried, h.tries, rfl⟩
  · have hcount := untried_mark s.rrp.tried n p hp hfree hword
    have htries := h.tries
    have hdecr : decr s.rrp.tries = untried (mark s.rrp.tried p) n := by
      unfold decr
      split <;> omega
    refine ⟨{ s.rrp with tried := mark s.rrp.tried p, tries := decr s.rrp.tries }, false, ?_,
      ⟨⟨h.fit.onBackup, h.fit.backup, h.fit.shape, ?_, h.fit.current⟩, fun i hi => ?_⟩, ?_, ?_, hdecr, rfl⟩
    · simp [turn, hpeers, h.fit.length, hpeq, hprobe, Request.store, h.fit.onBackup]
    · simpa [length_mark] using h.fit.bits
    · exact tested_mark_of_tested _ _ i hi
    · dsimp only
      omega
    · exact tested_mark_self _ _ hword
  · have hcount := untried_mark s.rrp.tried n p hp hfree hword
    have htries := h.tries
    refine ⟨{ s.rrp with primary := peers, current := p, tried := mark s.rrp.tried p }, true, ?_,
      ⟨⟨h.fit.onBackup, h.fit.backup, hshape.trans h.fit.shape, ?_, hp⟩, fun i hi => ?_⟩,
      Nat.le_refl _, ?_, ?_, hup, ?_, ?_⟩
    · simp [turn, hpeers, h.fit.length, hpeq, hprobe, Request.store, h.fit.onBackup]
    · simpa [length_mark] using h.fit.bits
    · exact tested_mark_of_tested _ _ i hi
    · exact tested_mark_self _ _ hword
    · dsimp only
      omega
    · simp [hfree]
    · exact tested_mark_self _ _ hword

-- How the loop is left: with a new peer, or after the turn in which tries reached 20. Then the
-- peer that the next call would look at first is marked.
structure Walked (n : Nat) (s s' : IpHash) (found : Bool) : Prop where
  addr : s'.addr = s.addr
  after : After n s.rrp s'.rrp
  taken : found = true → s'.tries < 20 ∧ s'.rrp.tries = untried s'.rrp.tried n + 1 ∧ Gives s.rrp s'.rrp
  missed : found = false → s'.tries = 20 ∧ s'.hash = s.hash ∧
    s'.rrp.tries = untried s'.rrp.tried n ∧ s'.rrp.primary = s.rrp.primary

theorem walk_spec (i hash : Nat) (s : IpHash) (h : Counted n s.rrp) (hlt : s.tries < 20)
    (hi : 20 - s.tries ≤ i) :
    ∃ found s', walk now i hash s = some (found, s') ∧ Walked n s s' found ∧
      Descends s.rrp.tries (walkTrail now i hash s) s'.rrp.tries ∧
      (walkTrail now i hash s).length ≤ 20 - s.tries ∧
      (found = false → tested s'.rrp.tried (nextHash s.addr hash % n) = some true) := by
  induction i generalizing hash s with
  | zero => omega
  | succ i ih =>
      obtain ⟨r, found, hturn, hafter, hle, htried, hout⟩ := turn_cases now hash s h
      cases found with
      | true =>
          simp only [if_true] at hturn hout
          refine ⟨true, { s with rrp := r, hash := nextHash s.addr hash }, by simp [walk, hturn],
            ⟨rfl, hafter, fun _ => ⟨hlt, hout⟩, nofun⟩, ?_, ?_, nofun⟩
          · simp [walkTrail, hturn, Descends, hle]
          · simp only [walkTrail, hturn, List.length_singleton]
            omega
      | false =>
          simp only [Bool.false_eq_true, if_false] at hturn hout
          have hmod : (s.tries + 1) % 256 = s.tries + 1 := Nat.mod_eq_of_lt (by omega)
          rw [hmod] at hturn
          by_cases hend : 20 ≤ s.tries + 1
          · have h20 : s.tries + 1 = 20 := by omega
            refine ⟨false, { s with rrp := r, tries := s.tries + 1 }, by simp [walk, hturn, hend],
              ⟨rfl, hafter, nofun, fun _ => ⟨h20, rfl, hout.1, hout.2⟩⟩, ?_, ?_, fun _ => htried⟩
            · simp [walkTrail, hturn, hend, Descends, hle]
            · simp only [walkTrail, hturn, hend, if_true, List.length_singleton]
              omega
          · obtain ⟨found, s', hwalk, hw, hdesc, hlen, -⟩ :=
              ih (nextHash s.addr hash) { s with rrp := r, tries := s.tries + 1 } ⟨hafter.fit, hout.1⟩
                (by dsimp only; omega) (by dsimp only; omega)
            refine ⟨found, s', by simp [walk, hturn, hend, hwalk], ⟨hw.addr, hafter.trans hw.after, ?_, ?_⟩,
              ?_, ?_, fun _ => hw.after.tried _ htried⟩
            · intro hf
              obtain ⟨hlt', htries, hgives⟩ := hw.taken hf
              refine ⟨hlt', htries, ?_, ?_, hgives.marked⟩
              · rw [← hout.2]
                exact hgives.up
              · exact fun hbit => hgives.untried (hafter.tried _ hbit)
            · intro hf
              obtain ⟨h20, hhash, htries, hprimary⟩ := hw.missed hf
              exact ⟨h20, hhash, htries, hprimary.trans hout.2⟩
            · simp only [walkTrail, hturn, hend, if_false]
              exact ⟨hle, hdesc⟩
            · dsimp only at hlen
              simp only [walkTrail, hturn, hend, if_false, List.length_cons]
              omega

end Walk

section FallBack

variable (now : Int) {n : Nat}

theorem inspect_returns (s : Conn) (hp : s.current < s.peers.peer.length)
    (hword : s.current / 64 < s.tried.length) :
    ∃ found s', inspect now s = some (found, s') ∧ s'.current = s.current ∧
      (s'.tries = s.tries ∨ tested s.tried s.current ≠ some true ∧ s'.tries = decr s.tries) := by
  obtain ⟨bit, hbit⟩ := Option.isSome_iff_exists.mp ((tested_isSome s.tried s.current).mpr hword)
  cases bit with
  | true => exact ⟨false, s, by simp [inspect, hbit], rfl, .inl rfl⟩
  | false =>
      have hne : tested s.tried s.current ≠ some true := by simp [hbit]
      have hget := List.getElem?_eq_getElem hp
      by_cases hd : s.peers.peer[s.current].down = true
      · have hin : inspect now s =
            some (false, { s with tried := mark s.tried s.current, tries := decr s.tries }) := by
          simp [inspect, hbit, hget, hd]
        exact ⟨_, _, hin, rfl, .inr ⟨hne, rfl⟩⟩
      · have hup : s.peers.peer[s.current].down = false := by simpa using hd
        by_cases ho : inOrder s.peers.peer[s.current] = true
        · exact ⟨true, s, by simp [inspect, hbit, hget, hup, ho], rfl, .inl rfl⟩
        · by_cases hr : recovered now s.peers.peer[s.current] = true
          · let l := s.peers.peer.modify s.current ({ · with fails := 0 })
            have hin : inspect now s = some (true, { s with peers := { s.peers with peer := l } }) := by
              simp [inspect, hbit, hget, hup, ho, hr, l]
            exact ⟨_, _, hin, rfl, .inl rfl⟩
          · let l := s.peers.peer.modify s.current ({ · with currentWeight := 0 })
            have hin : inspect now s =
                some (false, { s with peers := { s.peers with peer := l }, tries := decr s.tries }) := by
              simp [inspect, hbit, hget, hup, ho, hr, l]
            exact ⟨_, _, hin, rfl, .inr ⟨hne, rfl⟩⟩

theorem advance_lt (s : Conn) (h : 0 < s.peers.peer.length) :
    (advance s).current < (advance s).peers.peer.length := by
  simp only [advance]
  split <;> omega

theorem decr_of_pos {t : Nat} (h : 0 < t) : decr t = t - 1 := by
  unfold decr
  rw [if_neg (by omega)]

theorem nextTry_returns (i : Nat) (s : Conn) (hcur : s.current < s.peers.peer.length)
    (hbits : s.peers.peer.length ≤ 64 * s.tried.length) (htries : 0 < s.tries) :
    ∃ found s', nextTry now i s = some (found, s') ∧ s'.current < s.peers.peer.length ∧
      Descends s.tries (nextTrail now i s) s'.tries ∧ (nextTrail now i s).length ≤ i := by
  induction i generalizing s with
  | zero => exact ⟨false, s, rfl, hcur, rfl, Nat.le_refl _⟩
  | succ i ih =>
      obtain ⟨found, t, hin, hc, ht⟩ := inspect_returns now s hcur (by omega)
      have hle : t.tries ≤ s.tries := by
        rcases ht with ht | ⟨-, ht⟩
        · omega
        · rw [decr_of_pos htries] at ht
          omega
      have hout := inspect_outcome now s _ hin
      cases found with
      | true =>
          refine ⟨true, t, by simp [nextTry, hin], hc ▸ hcur, ?_, by simp [nextTrail, hin]⟩
          simp [nextTrail, hin, Descends, hle]
      | false =>
          have hpass : Passes now s t := hout
          have hlen : t.peers.peer.length = s.peers.peer.length := congrArg Prod.fst hpass.shape
          have hadv := advance_lt t (by omega)
          by_cases h0 : t.tries = 0
          · refine ⟨false, advance t, by simp [nextTry, hin, advance, h0], ?_, ?_, by simp [nextTrail, hin, h0]⟩
            · exact hlen ▸ hadv
            · simp [nextTrail, hin, h0, Descends, advance]
          · have hwords : (advance t).tried.length = s.tried.length := hpass.words
            obtain ⟨found, s', hrun, hlt, hdesc, hbound⟩ := ih (advance t) hadv
              (by rw [hwords]; exact hlen ▸ hbits) (Nat.pos_of_ne_zero h0)
            refine ⟨found, s', ?_, hlen ▸ hlt, ?_, ?_⟩
            · have hne : ¬(advance t).tries = 0 := h0
              simp [nextTry, hin, hne, hrun]
            · simp only [nextTrail, hin, h0, if_false]
              exact ⟨hle, hdesc⟩
            · simp only [nextTrail, hin, h0, if_false, List.length_cons]
              omega

-- Without tries left, and the peer at hand marked, the loop is left in its first round.
theorem nextTry_spent (i : Nat) (s : Conn) (h0 : s.tries = 0)
    (htried : tested s.tried s.current = some true) :
    nextTry now (i + 1) s = some (false, advance s) ∧ nextTrail now (i + 1) s = [0] := by
  have hin : inspect now s = some (false, s) := by simp [inspect, htried]
  simp [nextTry, nextTrail, hin, advance, h0]

-- The state in which round robin is called: a first try never comes back, and a call without
-- tries finds the current peer marked.
structure Left (n : Nat) (r : Request) : Prop where
  fit : Fit n r
  tries : r.tries < n
  spent : r.tries = 0 → tested r.tried r.current = some true

theorem select_returns (r : Request) (h : Left n r) :
    ∃ found s', select now (conn r) = some (found, s') ∧ s'.current < n ∧
      Descends r.tries (roundRobinTrail now (conn r)) s'.tries ∧
      (roundRobinTrail now (conn r)).length ≤ max 1 r.tries := by
  have hlen : (conn r).peers.peer.length = n := h.fit.length
  have hsingle : (conn r).peers.single = false := h.fit.single
  have hne : ¬(conn r).tries = (conn r).peers.peer.length := by
    have := h.tries
    simp only [conn, h.fit.length]
    omega
  have hcur : (conn r).current < (conn r).peers.peer.length := hlen.symm ▸ h.fit.current
  obtain ⟨found, s, hrun, hlt, hdesc, hbound⟩ :
      ∃ found s, nextTry now (rounds r.tries) (conn r) = some (found, s) ∧ s.current < n ∧
        Descends r.tries (nextTrail now (rounds r.tries) (conn r)) s.tries ∧
        (nextTrail now (rounds r.tries) (conn r)).length ≤ max 1 r.tries := by
    by_cases h0 : r.tries = 0
    · obtain ⟨hrun, htrail⟩ := nextTry_spent now (2 ^ 64 - 1) (conn r) h0 (h.spent h0)
      have hrounds : rounds r.tries = 2 ^ 64 - 1 + 1 := by simp [rounds, h0]
      refine ⟨false, advance (conn r), hrounds ▸ hrun, ?_, ?_, ?_⟩
      · rw [← hlen]
        exact advance_lt _ (by omega)
      · rw [hrounds, htrail]
        exact ⟨Nat.zero_le _, h0⟩
      · rw [hrounds, htrail]
        exact Nat.le_max_left _ _
    · have hrounds : rounds r.tries = r.tries := by simp [rounds, h0]
      obtain ⟨found, s, hrun, hlt, hdesc, hbound⟩ := nextTry_returns now r.tries (conn r) hcur
        (hlen.symm ▸ h.fit.bits) (Nat.pos_of_ne_zero h0)
      rw [hrounds]
      exact ⟨found, s, hrun, hlen ▸ hlt, hdesc, Nat.le_trans hbound (Nat.le_max_right _ _)⟩
  have htrail : roundRobinTrail now (conn r) = nextTrail now (rounds r.tries) (conn r) := by
    simp only [roundRobinTrail, hsingle, hne, Bool.false_eq_true, if_false]
    rfl
  rw [htrail]
  have hout := nextTry_outcome now _ _ _ hrun
  cases found with
  | false =>
      refine ⟨false, s, ?_, hlt, hdesc, hbound⟩
      simp only [select, hsingle, hne, Bool.false_eq_true, if_false]
      exact Option.bind_eq_some_iff.mpr ⟨_, hrun, rfl⟩
  | true =>
      have hbreak : Breaks now (conn r) s := hout
      have hslen : s.peers.peer.length = n := (congrArg Prod.fst hbreak.shape).trans hlen
      obtain ⟨t, htake, hc, ht⟩ : ∃ t, take s = some t ∧ t.current = s.current ∧ t.tries = s.tries := by
        simp [take, List.getElem?_eq_getElem (hslen.symm ▸ hlt : s.current < s.peers.peer.length)]
      refine ⟨true, t, ?_, hc ▸ hlt, ht ▸ hdesc, hbound⟩
      simp only [select, hsingle, hne, Bool.false_eq_true, if_false]
      exact Option.bind_eq_some_iff.mpr ⟨_, hrun, by simp [htake]⟩

theorem get_returns (r : Request) (h : Left n r) :
    ∃ rc r', getRoundRobinPeer now r = some (rc, r') ∧ After n r r' ∧
      (rc = .busy ∨ rc = .ok ∧ Gives r r') ∧
      Descends r.tries (roundRobinTrail now (conn r)) r'.tries ∧
      (roundRobinTrail now (conn r)).length ≤ max 1 r.tries := by
  obtain ⟨found, s, hsel, hlt, hdesc, hbound⟩ := select_returns now r h
  have hsel' : select now ⟨r.primary, r.current, r.tried, r.tries⟩ = some (found, s) := hsel
  have hout := select_outcome now (conn r) s found h.fit.single hsel
  cases found with
  | false =>
      have hk : Keeps (conn r) s := hout
      refine ⟨.busy, { r.store s with primary := forgive s.peers }, ?_,
        ⟨⟨h.fit.onBackup, ?_, ?_, ?_, hlt⟩, hk.tried⟩, .inl rfl, hdesc, hbound⟩
      · simp [getRoundRobinPeer, h.fit.onBackup, h.fit.lastCached, h.fit.backup, attempt_none, hsel',
          Request.store]
      · simp [Request.store, h.fit.onBackup, h.fit.backup]
      · exact (forgive_shape s.peers).trans (hk.shape.trans h.fit.shape)
      · have hw : s.tried.length = r.tried.length := hk.words
        simpa [Request.store, hw] using h.fit.bits
  | true =>
      have ht : Takes now (conn r) s := hout
      obtain ⟨p, hp, hav⟩ := (getElem?_available now r.primary.peer s.current).mpr ht.available
      refine ⟨.ok, r.store s, ?_, ⟨⟨h.fit.onBackup, ?_, ?_, ?_, hlt⟩, ht.tried⟩,
        .inr ⟨rfl, ⟨p, hp, ?_⟩, ?_, ht.taken⟩, hdesc, hbound⟩
      · simp [getRoundRobinPeer, h.fit.onBackup, h.fit.lastCached, h.fit.backup, attempt_none, hsel',
          Request.store]
      · simp [Request.store, h.fit.onBackup, h.fit.backup]
      · simpa [Request.store, h.fit.onBackup] using ht.shape.trans h.fit.shape
      · have hw : s.tried.length = r.tried.length := ht.words
        simpa [Request.store, hw] using h.fit.bits
      · simp only [available, Bool.and_eq_true, Bool.not_eq_true'] at hav
        exact hav.1
      · have hfree : tested r.tried s.current = some false := ht.untried
        simp [Request.store, hfree]

end FallBack

section Runs

variable (primary : Peers) (addr : UInt8 × UInt8 × UInt8)

-- The run of one request with the peers handed out and the result of the last get, none when a
-- get is due. After NGX_BUSY a get may come without a free. Other requests change the peers.
inductive HashRun : List Nat → Option Rc → IpHash → Prop where
  | start : HashRun [] none (initIpHashPeer primary none addr)
  | elsewhere {handed last s rrp} : HashRun handed last s → Elsewhere s.rrp rrp →
      HashRun handed last { s with rrp }
  | get {handed last now s rc s'} : HashRun handed last s → last = none ∨ last = some .busy →
      0 < s.rrp.tries → getIpHashPeer now s = some (rc, s') →
      HashRun (if rc = .ok then handed ++ [s'.rrp.current] else handed) (some rc) s'
  | free {handed rc now fail zero s rrp} : HashRun handed (some rc) s →
      freeRoundRobinPeer now fail zero s.rrp = some rrp → HashRun handed none { s with rrp }

-- Up to the fall back pc->tries counts the peers without a bit, one more until a free. The call
-- that falls back leaves tries at 20 and the peer the next call looks at first marked, so that
-- call falls back at once and leaves 21.
inductive Budget (n : Nat) (last : Option Rc) (s : IpHash) : Prop where
  | hashed (hlt : s.tries < 20) (hlast : last = none ∨ last = some .ok)
      (tries : s.rrp.tries = untried s.rrp.tried n + if last = none then 0 else 1)
  | fallen (h20 : s.tries = 20) (tries : s.rrp.tries < n)
      (marked : tested s.rrp.tried (nextHash s.addr s.hash % n) = some true)
  | roundRobin (h21 : s.tries = 21) (tries : s.rrp.tries < n)

structure HashInv (n : Nat) (handed : List Nat) (last : Option Rc) (s : IpHash) : Prop where
  fit : Fit n s.rrp
  budget : Budget n last s
  nodup : handed.Nodup
  bits : ∀ i ∈ handed, tested s.rrp.tried i = some true

variable {primary addr}

theorem fit_elsewhere {n : Nat} {r r' : Request} (h : Fit n r) (he : Elsewhere r r') : Fit n r' := by
  have hb := congrArg Prod.snd he.shapes
  simp only [shapes, h.backup, Option.map_none, Option.map_eq_none_iff] at hb
  exact ⟨he.onBackup.trans h.onBackup, hb, (congrArg Prod.fst he.shapes).trans h.shape,
    he.tried ▸ h.bits, he.current ▸ h.current⟩

theorem hashInv_start (h2 : 2 ≤ primary.peer.length) (hsingle : primary.single = false)
    (hcached : primary.lastCached = 0) :
    HashInv primary.peer.length [] none (initIpHashPeer primary none addr) where
  fit := by
    refine ⟨rfl, rfl, ?_, ?_, ?_⟩
    · simp [shape, initIpHashPeer, initRoundRobinPeer, hsingle, hcached]
    · simpa [initIpHashPeer, initRoundRobinPeer] using words_enough _ _ (Nat.le_refl _)
    · simp only [initIpHashPeer, initRoundRobinPeer]
      omega
  budget := .hashed (Nat.zero_lt_succ 19) (.inl rfl) (untried_init _ _).symm
  nodup := List.nodup_nil
  bits := by simp

theorem hashInv_elsewhere {n : Nat} {handed : List Nat} {last : Option Rc} {s : IpHash} {rrp : Request}
    (hi : HashInv n handed last s) (h : Elsewhere s.rrp rrp) :
    HashInv n handed last { s with rrp } where
  fit := fit_elsewhere hi.fit h
  budget := by
    cases hi.budget with
    | hashed hlt hlast tries => exact .hashed hlt hlast (by rw [h.tries, h.tried]; exact tries)
    | fallen h20 tries marked => exact .fallen h20 (h.tries ▸ tries) (by rw [h.tried]; exact marked)
    | roundRobin h21 tries => exact .roundRobin h21 (h.tries ▸ tries)
  nodup := hi.nodup
  bits := by rw [h.tried]; exact hi.bits

-- A free returns, takes one try when there is one, and leaves the bitmap.
theorem free_returns {n : Nat} {r : Request} (now : Int) (fail zero : Bool) (h : Fit n r) :
    ∃ r', freeRoundRobinPeer now fail zero r = some r' ∧ Fit n r' ∧ r'.tried = r.tried ∧
      r'.tries = r.tries - 1 := by
  have hpeers : r.peers = some r.primary := by simp [Request.peers, h.onBackup]
  have hlt : r.current < r.primary.peer.length := h.length.symm ▸ h.current
  obtain ⟨peer, hacc, hlen⟩ : ∃ peer, account now fail r.primary.peer r.current = some peer ∧
      peer.length = n := by
    cases fail with
    | false => exact ⟨r.primary.peer, rfl, h.length⟩
    | true =>
        refine ⟨r.primary.peer.modify r.current (failed now), ?_, by simp [h.length]⟩
        simp [account, List.getElem?_eq_getElem hlt]
  by_cases hzero : zero = true ∧ r.tries = 0
  · exact ⟨r, by simp [freeRoundRobinPeer, hzero.1, hzero.2], h, rfl, by rw [hzero.2]⟩
  · let s := advance ⟨{ r.primary with peer }, r.current, r.tried, r.tries⟩
    refine ⟨r.store { s with tries := r.tries - 1 }, ?_, ⟨h.onBackup, ?_, ?_, h.bits, ?_⟩, rfl, rfl⟩
    · simp [freeRoundRobinPeer, hzero, hpeers, h.single, hacc, s]
    · simp [Request.store, h.onBackup, h.backup]
    · simp [shape, Request.store, h.onBackup, s, advance, h.single, h.lastCached, hlen]
    · have hadv := advance_lt ⟨{ r.primary with peer }, r.current, r.tried, r.tries⟩
        (by have := h.current; dsimp only; omega)
      exact hlen ▸ hadv

theorem hashInv_free {n : Nat} {handed : List Nat} {rc : Rc} {now : Int} {fail zero : Bool} {s : IpHash}
    {rrp : Request} (hi : HashInv n handed (some rc) s)
    (h : freeRoundRobinPeer now fail zero s.rrp = some rrp) :
    HashInv n handed none { s with rrp } := by
  obtain ⟨r', hfree, hfit, htried, htries⟩ := free_returns now fail zero hi.fit
  obtain rfl : r' = rrp := Option.some.inj (hfree.symm.trans h)
  refine ⟨hfit, ?_, hi.nodup, by rw [htried]; exact hi.bits⟩
  cases hi.budget with
  | hashed hlt _ tries =>
      refine .hashed hlt (.inl rfl) ?_
      rw [htries, htried, tries]
      simp
  | fallen h20 tries marked =>
      refine .fallen h20 ?_ (by rw [htried]; exact marked)
      dsimp only
      omega
  | roundRobin h21 tries =>
      refine .roundRobin h21 ?_
      dsimp only
      omega

-- What one call of get does.
structure Called (n : Nat) (now : Int) (s : IpHash) (rc : Rc) (s' : IpHash) : Prop where
  returns : getIpHashPeer now s = some (rc, s')
  passes : (trail now s).length ≤ 20 + n
  tries : Descends s.rrp.tries (trail now s) s'.rrp.tries
  gives : rc = .busy ∨ rc = .ok ∧ Gives s.rrp s'.rrp
  after : After n s.rrp s'.rrp
  budget : Budget n (some rc) s'

theorem fallBack_returns {n : Nat} (now : Int) (s : IpHash) (h : Left n s.rrp) :
    ∃ rc s', fallBack now s = some (rc, s') ∧ s'.addr = s.addr ∧ s'.hash = s.hash ∧
      s'.tries = s.tries ∧ After n s.rrp s'.rrp ∧ (rc = .busy ∨ rc = .ok ∧ Gives s.rrp s'.rrp) ∧
      Descends s.rrp.tries (roundRobinTrail now (conn s.rrp)) s'.rrp.tries ∧
      (roundRobinTrail now (conn s.rrp)).length ≤ n := by
  obtain ⟨rc, r', hget, hafter, hrc, hdesc, hlen⟩ := get_returns now s.rrp h
  refine ⟨rc, { s with rrp := r' }, by simp [fallBack, hget], rfl, rfl, rfl, hafter, hrc, hdesc, ?_⟩
  have := h.tries
  omega

theorem get_fallBack {n : Nat} (now : Int) (s : IpHash) (h : Left n s.rrp) (h21 : s.tries = 21) :
    ∃ rc s', Called n now s rc s' := by
  obtain ⟨rc, s', hfall, -, -, htries, hafter, hgives, hdesc, hlen⟩ := fallBack_returns now s h
  have hpeers : s.rrp.peers = some s.rrp.primary := by simp [Request.peers, h.fit.onBackup]
  have htrail : trail now s = roundRobinTrail now (conn s.rrp) := by simp [trail, h21]
  refine ⟨rc, s', by simp [getIpHashPeer, hpeers, h21, hfall], ?_, ?_, hgives, hafter, ?_⟩
  · rw [htrail]
    omega
  · rw [htrail]
    exact hdesc
  · refine .roundRobin (htries.trans h21) ?_
    have := hdesc.le
    have := h.tries
    omega

-- A walk that gave up, and the call of round robin behind it.
theorem get_walked {n : Nat} (now : Int) (s s₁ : IpHash) (hs : Fit n s.rrp) (hlt : s.tries ≤ 20)
    (hwalk : walk now fuel s.hash s = some (false, s₁)) (hafter₁ : After n s.rrp s₁.rrp)
    (hprimary : s₁.rrp.primary = s.rrp.primary) (hleft : Left n s₁.rrp)
    (hdesc₁ : Descends s.rrp.tries (walkTrail now fuel s.hash s) s₁.rrp.tries)
    (hlen₁ : (walkTrail now fuel s.hash s).length ≤ 20)
    (hbudget : ∀ rc s', s'.addr = s₁.addr → s'.hash = s₁.hash → s'.tries = s₁.tries →
      After n s₁.rrp s'.rrp → s'.rrp.tries < n → Budget n (some rc) s') :
    ∃ rc s', Called n now s rc s' := by
  obtain ⟨rc, s', hfall, haddr, hhash, htries, hafter, hgives, hdesc, hlen⟩ :=
    fallBack_returns now s₁ hleft
  have hpeers : s.rrp.peers = some s.rrp.primary := by simp [Request.peers, hs.onBackup]
  have hcond : ¬(20 < s.tries ∨ s.rrp.primary.single = true) := by
    rw [hs.single]
    simp
    omega
  have htrail : trail now s = walkTrail now fuel s.hash s ++ roundRobinTrail now (conn s₁.rrp) := by
    simp only [trail, hcond, if_false, hwalk]
  refine ⟨rc, s', ?_, ?_, ?_, ?_, hafter₁.trans hafter, ?_⟩
  · simp only [getIpHashPeer, hpeers, Option.bind_eq_bind, Option.bind_some, hcond, if_false, hwalk,
      Bool.false_eq_true, hfall]
  · rw [htrail, List.length_append]
    omega
  · rw [htrail]
    exact hdesc₁.append hdesc
  · refine hgives.imp id ?_
    rintro ⟨hok, hg⟩
    refine ⟨hok, ?_, ?_, hg.marked⟩
    · rw [← hprimary]
      exact hg.up
    · exact fun hbit => hg.untried (hafter₁.tried _ hbit)
  · refine hbudget rc s' haddr hhash htries hafter ?_
    have := hdesc.le
    have := hleft.tries
    omega

theorem get_called {n : Nat} {handed : List Nat} {last : Option Rc} (now : Int) (s : IpHash)
    (hi : HashInv n handed last s) (hlast : last = none ∨ last = some .busy) (hpos : 0 < s.rrp.tries) :
    ∃ rc s', Called n now s rc s' := by
  have hn : 0 < n := by have := hi.fit.current; omega
  cases hi.budget with
  | hashed hlt hlast' tries =>
      obtain rfl : last = none := by
        rcases hlast with h | rfl
        · exact h
        · simp at hlast'
      have hcounted : Counted n s.rrp := ⟨hi.fit, by simpa using tries⟩
      obtain ⟨found, s₁, hwalk, hw, hdesc, hlen, htried⟩ :=
        walk_spec now fuel s.hash s hcounted hlt (by unfold fuel; omega)
      cases found with
      | true =>
          obtain ⟨hlt₁, htries₁, hgives⟩ := hw.taken rfl
          have hpeers : s.rrp.peers = some s.rrp.primary := by simp [Request.peers, hi.fit.onBackup]
          have hcond : ¬(20 < s.tries ∨ s.rrp.primary.single = true) := by
            rw [hi.fit.single]
            simp
            omega
          have htrail : trail now s = walkTrail now fuel s.hash s := by
            simp only [trail, hcond, if_false, hwalk, List.append_nil]
          refine ⟨.ok, s₁, ?_, ?_, ?_, .inr ⟨rfl, hgives⟩, hw.after, .hashed hlt₁ (.inr rfl) htries₁⟩
          · simp only [getIpHashPeer, hpeers, Option.bind_eq_bind, Option.bind_some, hcond, if_false,
              hwalk, if_true]
            rfl
          · rw [htrail]
            omega
          · rw [htrail]
            exact hdesc
      | false =>
          obtain ⟨h20, hhash, htries₁, hprimary⟩ := hw.missed rfl
          have hmarked := htried rfl
          have hleft : Left n s₁.rrp := by
            refine ⟨hw.after.fit, ?_, fun h0 => ?_⟩
            · rw [htries₁]
              exact untried_lt _ n _ (Nat.mod_lt _ hn) hmarked
            · exact tested_of_untried_zero _ n _ hw.after.fit.current (htries₁ ▸ h0)
          refine get_walked now s s₁ hi.fit (by omega) hwalk hw.after hprimary hleft hdesc (by omega) ?_
          intro rc s' haddr hhash' htries hafter hlt'
          refine .fallen (htries.trans h20) hlt' ?_
          rw [haddr, hw.addr, hhash', hhash]
          exact hafter.tried _ hmarked
  | fallen h20 tries marked =>
      have hturn := turn_marked now s.hash s hi.fit marked
      have hstep : ∀ i, walk now (i + 1) s.hash s = some (false, { s with tries := 21 }) ∧
          walkTrail now (i + 1) s.hash s = [s.rrp.tries] := by
        intro i
        simp [walk, walkTrail, hturn, h20]
      obtain ⟨hwalk, htrail⟩ : walk now fuel s.hash s = some (false, { s with tries := 21 }) ∧
          walkTrail now fuel s.hash s = [s.rrp.tries] := hstep 255
      have hleft : Left n s.rrp := ⟨hi.fit, tries, fun h0 => by omega⟩
      refine get_walked now s _ hi.fit (by omega) hwalk (After.refl hi.fit) rfl hleft ?_ ?_ ?_
      · rw [htrail]
        exact ⟨Nat.le_refl _, rfl⟩
      · simp [htrail]
      · intro rc s' _ _ htries _ hlt
        exact .roundRobin htries hlt
  | roundRobin h21 tries => exact get_fallBack now s ⟨hi.fit, tries, fun h0 => by omega⟩ h21

theorem hashInv_get {n : Nat} {handed : List Nat} {last : Option Rc} {now : Int} {s s' : IpHash} {rc : Rc}
    (hi : HashInv n handed last s) (hc : Called n now s rc s') :
    HashInv n (if rc = .ok then handed ++ [s'.rrp.current] else handed) (some rc) s' := by
  have hbits : ∀ i ∈ handed, tested s'.rrp.tried i = some true :=
    fun i hmem => hc.after.tried i (hi.bits i hmem)
  refine ⟨hc.after.fit, hc.budget, ?_, ?_⟩
  · rcases hc.gives with rfl | ⟨rfl, hg⟩
    · exact hi.nodup
    · rw [if_pos rfl, List.nodup_append]
      refine ⟨hi.nodup, by simp, fun i hmem j hj heq => ?_⟩
      obtain rfl := List.mem_singleton.mp hj
      exact hg.untried (hi.bits _ (heq ▸ hmem))
  · rcases hc.gives with rfl | ⟨rfl, hg⟩
    · exact hbits
    · intro i hmem
      rcases List.mem_append.mp hmem with hold | hnew
      · exact hbits i hold
      · exact List.mem_singleton.mp hnew ▸ hg.marked

theorem hashInv_run (h2 : 2 ≤ primary.peer.length) (hsingle : primary.single = false)
    (hcached : primary.lastCached = 0) {handed : List Nat} {last : Option Rc} {s : IpHash}
    (h : HashRun primary addr handed last s) : HashInv primary.peer.length handed last s := by
  induction h with
  | start => exact hashInv_start h2 hsingle hcached
  | elsewhere _ he ih => exact hashInv_elsewhere ih he
  | @get handed last now s rc s' _ hlast hpos hget ih =>
      obtain ⟨rc₁, s₁, hc⟩ := get_called now s ih hlast hpos
      obtain ⟨rfl, rfl⟩ := Prod.mk.inj (Option.some.inj (hc.returns.symm.trans hget))
      exact hashInv_get ih hc
  | free _ hfree ih => exact hashInv_free ih hfree

-- In every state of a run with tries left a get returns within its passes, pc->tries only goes
-- down, and a peer that is handed out is not down and new; a free returns.
theorem ip_hash_exhausts_peers (primary : Peers) (addr : UInt8 × UInt8 × UInt8)
    (h2 : 2 ≤ primary.peer.length) (hsingle : primary.single = decide (primary.peer.length = 1))
    (hcached : primary.lastCached = 0) (handed : List Nat) (last : Option Rc) (s : IpHash)
    (h : HashRun primary addr handed last s) :
    handed.Nodup ∧
      (∀ now fail zero, ∃ r, freeRoundRobinPeer now fail zero s.rrp = some r ∧ r.tries ≤ s.rrp.tries) ∧
      ((last = none ∨ last = some .busy) → 0 < s.rrp.tries → ∀ now, ∃ rc s',
        getIpHashPeer now s = some (rc, s') ∧ (trail now s).length ≤ 20 + primary.peer.length ∧
        Descends s.rrp.tries (trail now s) s'.rrp.tries ∧
        (rc = .busy ∨ rc = .ok ∧ s'.rrp.current ∉ handed ∧
          ∃ p, s.rrp.primary.peer[s'.rrp.current]? = some p ∧ p.down = false)) := by
  have hsingle' : primary.single = false := by
    rw [hsingle]
    simp
    omega
  have hi := hashInv_run h2 hsingle' hcached h
  refine ⟨hi.nodup, fun now fail zero => ?_, fun hlast hpos now => ?_⟩
  · obtain ⟨r, hfree, -, -, htries⟩ := free_returns now fail zero hi.fit
    exact ⟨r, hfree, by omega⟩
  · obtain ⟨rc, s', hc⟩ := get_called now s hi hlast hpos
    refine ⟨rc, s', hc.returns, hc.passes, hc.tries, hc.gives.imp id fun ⟨hok, hg⟩ => ⟨hok, ?_, hg.up⟩⟩
    exact fun hmem => hg.untried (hi.bits _ hmem)

end Runs

-- Two peers: the first call takes peer 0, and once it failed the next call is answered.
theorem ip_hash_exhausts_pair :
    let primary : Peers := ⟨false, 0, [freshPeer 1 1, freshPeer 1 1]⟩
    ∃ s, HashRun primary (127, 0, 0) [0] none s ∧ 0 < s.rrp.tries ∧
      ∃ rc s', getIpHashPeer 7 s = some (rc, s') ∧ (trail 7 s).length ≤ 22 ∧
        (rc = .busy ∨ rc = .ok ∧ s'.rrp.current ∉ [0]) := by
  intro primary
  let taken : IpHash := ⟨⟨primary, none, false, 0, [1], 2⟩, 4040, (127, 0, 0), 0⟩
  let freed : IpHash := ⟨⟨⟨false, 0, [⟨0, 1, 1, 0, 1, 10, false⟩, freshPeer 1 1]⟩, none, false, 1, [1], 1⟩,
    4040, (127, 0, 0), 0⟩
  have hget : getIpHashPeer 0 (initIpHashPeer primary none (127, 0, 0)) = some (.ok, taken) := by
    decide
  have hfree : freeRoundRobinPeer 0 true false taken.rrp = some freed.rrp := by decide
  have hrun : HashRun primary (127, 0, 0) [0] none freed :=
    .free (.get .start (.inl rfl) (by decide) hget) hfree
  have hpos : 0 < freed.rrp.tries := by decide
  obtain ⟨-, -, hcall⟩ := ip_hash_exhausts_peers primary (127, 0, 0) (by decide) rfl rfl [0] none freed hrun
  obtain ⟨rc, s', hnext, hlen, -, hrc⟩ := hcall (.inl rfl) hpos 7
  exact ⟨freed, hrun, hpos, rc, s', hnext, hlen, hrc.imp id fun ⟨hok, hnew, _⟩ => ⟨hok, hnew⟩⟩

end Nginx.RoundRobin
